import Mathlib.Data.Finset.Card
import Mathlib.Data.Nat.ModEq
import Mathlib.Tactic.Linarith

/-!
# Machinery/Probe — linear probing in a cyclic table

    home i ──▸ i+1 ──▸ … ──▸ n-1 ──▸ 0 ──▸ …

`seek n stop fuel i` walks the `n` cells of a cyclic table from `i` and returns the first one where
`stop` holds.  A cell is *linked* to a start (`Linked`) when no free cell stands between them.  The
two facts an open-addressed table rests on:

* a seek that stops at every free cell ends at a linked cell (`linked_of_seek`);
* a linked cell is found by every seek that stops there and otherwise only at free cells
  (`seek_eq_of_linked`).
-/

namespace Treeless

/-- The first cell from `i` on, wrapping around after `n` cells, where `stop` holds. -/
def seek (n : ℕ) (stop : ℕ → Prop) [DecidablePred stop] : ℕ → ℕ → Option ℕ
  | 0, _ => none
  | fuel + 1, i => if stop i then some i else seek n stop fuel ((i + 1) % n)

/-- `j` is reached from `i` without crossing a free cell. -/
def Linked (n : ℕ) (free : ℕ → Prop) (i j : ℕ) : Prop :=
  ∃ d < n, (i + d) % n = j ∧ ∀ e < d, ¬ free ((i + e) % n)

section Seek

variable {n : ℕ} {stop free : ℕ → Prop} [DecidablePred stop] {i j : ℕ}

/-- Every cell lies some number of steps, fewer than `n`, ahead of any start. -/
theorem exists_offset (hi : i < n) (hj : j < n) : ∃ d < n, (i + d) % n = j := by
  rcases Nat.lt_or_ge j i with h | h
  · refine ⟨n - i + j, by omega, ?_⟩
    rw [show i + (n - i + j) = j + n by omega, Nat.add_mod_right, Nat.mod_eq_of_lt hj]
  · exact ⟨j - i, by omega, by rw [Nat.add_sub_cancel' h, Nat.mod_eq_of_lt hj]⟩

/-- Fewer than `n` steps never come back to the same cell. -/
theorem offset_inj {d e : ℕ} (hd : d < n) (he : e < n) (h : (i + d) % n = (i + e) % n) : d = e := by
  have hmod : d ≡ e [MOD n] := Nat.ModEq.add_left_cancel' i h
  exact Nat.ModEq.eq_of_lt_of_lt hmod hd he

/-- **What a seek returns**: the first of the next `fuel` cells where it stops. -/
theorem seek_eq_some_iff : ∀ {fuel i : ℕ}, i < n →
    (seek n stop fuel i = some j ↔
      ∃ d < fuel, (i + d) % n = j ∧ stop j ∧ ∀ e < d, ¬ stop ((i + e) % n))
  | 0, i, _ => by simp [seek]
  | fuel + 1, i, hi => by
      have hstep : ∀ e, (((i + 1) % n) + e) % n = (i + (e + 1)) % n := fun e => by
        rw [Nat.mod_add_mod, Nat.add_assoc, Nat.add_comm 1 e]
      have h0 : (i + 0) % n = i := Nat.mod_eq_of_lt hi
      rw [seek]
      split
      case isTrue hs =>
        constructor
        · rintro ⟨⟩
          exact ⟨0, Nat.succ_pos _, h0, hs, fun e he => absurd he (Nat.not_lt_zero e)⟩
        · rintro ⟨d, -, hdj, -, hmin⟩
          cases d with
          | zero => exact congrArg some (h0.symm.trans hdj)
          | succ d => exact absurd (h0.symm ▸ hs) (hmin 0 (Nat.succ_pos d))
      case isFalse hs =>
        rw [seek_eq_some_iff (Nat.mod_lt _ (by omega))]
        constructor
        · rintro ⟨d, hd, hdj, hj, hmin⟩
          refine ⟨d + 1, by omega, (hstep d).symm.trans hdj, hj, fun e he => ?_⟩
          cases e with
          | zero => exact h0.symm ▸ hs
          | succ e => exact hstep e ▸ hmin e (by omega)
        · rintro ⟨d, hd, hdj, hj, hmin⟩
          cases d with
          | zero => exact absurd ((h0.symm.trans hdj) ▸ hj) hs
          | succ d =>
            exact ⟨d, by omega, (hstep d).trans hdj, hj,
              fun e he => (hstep e).symm ▸ hmin (e + 1) (by omega)⟩

/-- **A seek finds something** as soon as there is a cell to stop at. -/
theorem exists_seek (hi : i < n) (hj : j < n) (hs : stop j) : ∃ k, seek n stop n i = some k := by
  classical
  have hex : ∃ d, d < n ∧ stop ((i + d) % n) := by
    obtain ⟨d, hd, rfl⟩ := exists_offset hi hj
    exact ⟨d, hd, hs⟩
  obtain ⟨hlt, hstop⟩ := Nat.find_spec hex
  refine ⟨_, (seek_eq_some_iff hi).mpr ⟨Nat.find hex, hlt, rfl, hstop, fun e he hse => ?_⟩⟩
  exact Nat.find_min hex he ⟨by omega, hse⟩

theorem seek_lt (hi : i < n) {fuel : ℕ} (h : seek n stop fuel i = some j) : j < n := by
  obtain ⟨d, -, rfl, -, -⟩ := (seek_eq_some_iff hi).mp h
  exact Nat.mod_lt _ (by omega)

theorem stop_of_seek (hi : i < n) {fuel : ℕ} (h : seek n stop fuel i = some j) : stop j := by
  obtain ⟨d, -, -, hs, -⟩ := (seek_eq_some_iff hi).mp h
  exact hs

/-- **A seek that stops at every free cell ends at a linked cell.** -/
theorem linked_of_seek (hi : i < n) (hfree : ∀ x, free x → stop x)
    (h : seek n stop n i = some j) : Linked n free i j := by
  obtain ⟨d, hd, hdj, -, hmin⟩ := (seek_eq_some_iff hi).mp h
  exact ⟨d, hd, hdj, fun e he hf => hmin e he (hfree _ hf)⟩

/-- **A linked cell is found** by a seek that stops there, and elsewhere only at free cells. -/
theorem seek_eq_of_linked (hi : i < n) (hl : Linked n free i j) (hj : stop j)
    (honly : ∀ x < n, stop x → free x ∨ x = j) : seek n stop n i = some j := by
  obtain ⟨d, hd, rfl, hmin⟩ := hl
  refine (seek_eq_some_iff hi).mpr ⟨d, hd, rfl, hj, fun e he hs => ?_⟩
  rcases honly _ (Nat.mod_lt _ (by omega)) hs with hf | heq
  · exact hmin e he hf
  · exact absurd (offset_inj (by omega) hd heq) (by omega)

/-- Filling cells keeps every link. -/
theorem Linked.mono {free' : ℕ → Prop} (h : Linked n free i j) (hsub : ∀ x, free' x → free x) :
    Linked n free' i j := by
  obtain ⟨d, hd, hdj, hmin⟩ := h
  exact ⟨d, hd, hdj, fun e he hf => hmin e he (hsub _ hf)⟩

end Seek

end Treeless
