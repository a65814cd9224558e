import Mathlib.Order.Lattice
import Mathlib.Data.List.Basic

/-!
# Machinery/History — a register that is changed by compare-and-swap

The swaps that were applied to a register, newest first.  Each goes by what the one before it has
written (`Chained`), and what they write has rising versions (`Rising`); then a version names one of
the values written, and none of them is newer than the last.
-/

namespace Treeless

section Chained

variable {α β : Type*} (old : α → Option β) (new : α → β)

/-- The value the swaps have left. -/
def current (swaps : List α) : Option β := swaps.head?.map new

/-- **Each swap goes by what the one before it has written**, the first by nothing. -/
def Chained : List α → Prop
  | [] => True
  | a :: swaps => old a = current new swaps ∧ Chained swaps

variable {old new}

/-- **Swaps that count up from `start`** leave it with the number of those after the first. -/
theorem Chained.count {count : β → ℕ} {start : ℕ} : ∀ {swaps : List α}, Chained old new swaps →
    (∀ a ∈ swaps, old a = none → count (new a) = start) →
    (∀ a ∈ swaps, ∀ b, old a = some b → count (new a) = count b + 1) →
    ∀ b, current new swaps = some b → count b + 1 = start + swaps.length
  | [a], h, hfirst, _, b, hb => by
      rw [← Option.some.inj hb, hfirst a List.mem_cons_self h.1]
      rfl
  | a :: a' :: swaps, h, hfirst, hnext, b, hb => by
      have ih := Chained.count h.2 (fun x hx => hfirst x (List.mem_cons_of_mem _ hx))
        (fun x hx => hnext x (List.mem_cons_of_mem _ hx)) (new a') rfl
      rw [← Option.some.inj hb, hnext a List.mem_cons_self (new a') h.1, ih]
      rfl

end Chained

section Rising

variable {β τ : Type*} [LinearOrder τ] (version : β → τ)

/-- The versions rise, from the oldest to the newest. -/
def Rising (values : List β) : Prop := values.Pairwise fun b a => version a < version b

variable {version} {b : β} {values : List β}

/-- No value is newer than the last. -/
theorem Rising.le_head (h : Rising version (b :: values)) {a : β} (ha : a ∈ b :: values) :
    version a ≤ version b := by
  rcases List.mem_cons.mp ha with rfl | ha
  · exact le_rfl
  · exact ((List.pairwise_cons.mp h).1 a ha).le

/-- **A version names a value.** -/
theorem Rising.eq_head (h : Rising version (b :: values)) {a : β} (ha : a ∈ b :: values)
    (hv : version a = version b) : a = b := by
  rcases List.mem_cons.mp ha with rfl | ha
  · rfl
  · exact absurd hv ((List.pairwise_cons.mp h).1 a ha).ne

theorem Rising.cons (h : Rising version values) {a : β}
    (ha : ∀ b ∈ values.head?, version b < version a) : Rising version (a :: values) := by
  refine List.pairwise_cons.mpr ⟨fun b hb => ?_, h⟩
  cases values with
  | nil => cases hb
  | cons b' values => exact lt_of_le_of_lt (h.le_head hb) (ha b' rfl)

end Rising

end Treeless
