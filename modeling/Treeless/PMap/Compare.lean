import Treeless.PMap.Atomic
import Treeless.PMap.Reachable

/-!
# PMap/Compare — when a `CAS` may write

A `CAS` names the pair it wants to replace by its timestamp and the hash of its value; for a key
that is absent it names the timestamp zero and the hash of the empty value (`Admits`).  On a present
key both are compared.  On an absent one the value is refused only if *both* differ, so that one of
them is enough to write.
-/

namespace Treeless

/-- **A timestamp is its eight bytes.** -/
theorem unixTime_eq_iff {a b : Bytes} (ha : 8 ≤ a.length) (hb : 8 ≤ b.length) :
    unixTime a = unixTime b ↔ a.take 8 = b.take 8 := by
  constructor
  · intro h
    have hlen : ∀ v : Bytes, 8 ≤ v.length → (v.take 8).length = 8 := fun v hv => by
      rw [List.length_take, Nat.min_eq_left hv]
    have hlt : ∀ v : Bytes, 8 ≤ v.length → leNat (v.take 8) < 2 ^ 64 := fun v hv => by
      have := leNat_lt (v.take 8)
      rwa [hlen v hv] at this
    have hword : uint64 a = uint64 b := congrArg Int64.toUInt64 (Int64.toInt_inj.mp h)
    have hnat : leNat (a.take 8) = leNat (b.take 8) := by
      have := congrArg UInt64.toNat hword
      rwa [uint64, uint64, UInt64.toNat_ofNat_of_lt' (hlt a ha),
        UInt64.toNat_ofNat_of_lt' (hlt b hb)] at this
    rw [← leBytes_leNat (a.take 8), ← leBytes_leNat (b.take 8), hnat, hlen a ha, hlen b hb]
  · intro h
    rw [← unixTime_take a, h, unixTime_take]

namespace PMap

variable {c c' : PMap} {k v : Bytes} {e : Option Error} {size : ℕ}

/-- What a `CAS` of the value `v` is documented to replace: a pair of the timestamp `v[0:8]` whose
value hashes to `v[8:16]`, or an absent one if these are zero and the hash of nothing. -/
def Admits : Option Bytes → Bytes → Prop
  | some old, v => 8 ≤ old.length ∧ old.take 8 = v.take 8 ∧ uint64 (v.drop 8) = fnv1a64 (old.drop 8)
  | none, v => unixTime v = 0 ∧ uint64 (v.drop 8) = fnv1a64 []

/-- The `CAS` with the answer `e` that made `c'` of `c` did what is documented. -/
structure Documented (c : PMap) (k v : Bytes) (e : Option Error) (c' : PMap) : Prop where
  admits : e = none ↔ Admits (c.value k) v
  writes : e = none → c'.value = Function.update c.value k (some (v.drop 16))
  keeps : e ≠ none → Atomic c c'

/-- The tests made are the documented ones, unless the key is absent and one of the two holds. -/
theorem passes_iff_admits (stored : Option Bytes) (hv : 24 ≤ v.length) :
    (Passes stored v ↔ Admits stored v)
      ↔ ¬ (stored = none ∧ ¬ (unixTime v = 0 ↔ uint64 (v.drop 8) = fnv1a64 [])) := by
  cases stored with
  | none =>
    simp only [Passes, Admits]
    tauto
  | some old =>
    have heq : Passes (some old) v ↔ Admits (some old) v :=
      and_congr_right fun hold => and_congr_left fun _ => unixTime_eq_iff hold (by omega)
    exact iff_of_true heq fun h => by cases h.1

/-- **When `CAS` does what is documented.**  In every reachable state, for a value of at least
twenty-four bytes and no limit hit: exactly unless the key is absent and one, but only one, of the
timestamp and the hash is that of an absent pair.  The call returns if the value stored has a
timestamp. -/
theorem cas_documented_iff (hsize : size ≤ 2 ^ 32) (hc : Reachable size c) (hv : 24 ≤ v.length) :
    (∀ e c', Returned fnv1a64 c (.cas k v, e) c' → e ≠ some .hashMapLimit →
      e ≠ some .storeLimit → (Documented c k v e c' ↔ ¬ (c.value k = none
        ∧ ¬ (unixTime v = 0 ↔ uint64 (v.drop 8) = fnv1a64 []))))
    ∧ ((∀ old, c.value k = some old → 8 ≤ old.length) →
      ∃ e c', Returned fnv1a64 c (.cas k v, e) c') := by
  obtain ⟨log, m, h⟩ := hc.filing hsize
  have hvalue : c.value = m := h.ordered.value_eq
  have hends := h.cas k hv
  refine ⟨fun e c' hx hlimit hroom => ?_, fun hold => ?_⟩
  · rw [← passes_iff_admits _ hv, hvalue]
    cases hends.returns _ hx with
    | full => exact absurd rfl hlimit
    | denied => exact absurd rfl hroom
    | refused hs htest =>
      have hatomic : Atomic c { c with hm := _ } :=
        ⟨(h.spaced hs).ordered.value_eq.trans hvalue.symm, rfl, rfl⟩
      refine ⟨fun hd => iff_of_false htest fun ha => ?_,
        fun hiff => ⟨?_, fun h0 => ?_, fun _ => hatomic⟩⟩
      · cases hd.admits.mpr (hvalue ▸ ha)
      · rw [hvalue, ← hiff]
        exact iff_of_false (Option.some_ne_none _) htest
      · cases h0
    | done htest h' =>
      refine ⟨fun hd => iff_of_true htest (hvalue ▸ hd.admits.mp rfl), fun hiff =>
        ⟨?_, fun _ => ?_, fun h0 => absurd rfl h0⟩⟩
      · rw [hvalue, ← hiff]
        exact iff_of_true rfl htest
      · rw [hvalue]
        exact h'.ordered.value_eq
  · cases hx : c.cas (fnv1a64 k) k v with
    | ok p => exact ⟨p.1, p.2, hx⟩
    | error f =>
      obtain ⟨old, hk, hlen⟩ := hends.of_error hx
      exact absurd (hold old (hvalue ▸ hk)) (not_le.mpr hlen)

/-- A `CAS` that names an absent pair, or half of one: the timestamp `t`, the hash of nothing. -/
def casOfNothing (t : ℕ) : Bytes := leBytes 8 t ++ leBytes 8 (fnv1a64 []).toNat ++ stamped 9 [5]

/-- The first `CAS` of a key. -/
theorem cas_documented_first : ∃ c',
    Returned fnv1a64 (new "" 100) (.cas [1] (casOfNothing 0), none) c'
    ∧ Documented (new "" 100) [1] (casOfNothing 0) none c' := by
  obtain ⟨c', hrun, -⟩ := exists_run fnv1a64 (new "" 100) [(.cas [1] (casOfNothing 0), none)]
    (fun _ => .ok ()) () (by decide) (by decide +kernel)
  cases hrun with
  | cons hs hrest =>
    cases hrest
    refine ⟨c', hs.2, ((cas_documented_iff (by decide) (.new "") (by decide)).1 none c' hs.2
      (by decide) (by decide)).mpr fun h => h.2 ?_⟩
    decide +kernel

/-- **The hash of nothing is enough**: a `CAS` that names a pair of the time 7 is admitted on a key
that was never set. -/
theorem cas_admits_any_time : ∃ c', Reachable 100 (new "" 100)
    ∧ Returned fnv1a64 (new "" 100) (.cas [1] (casOfNothing 7), none) c'
    ∧ (new "" 100).value [1] = none ∧ ¬ Admits none (casOfNothing 7) := by
  obtain ⟨c', hrun, -⟩ := exists_run fnv1a64 (new "" 100) [(.cas [1] (casOfNothing 7), none)]
    (fun _ => .ok ()) () (by decide) (by decide +kernel)
  cases hrun with
  | cons hs hrest =>
    cases hrest
    refine ⟨c', .new "", hs.2, ?_, fun h => absurd h.1 (by decide +kernel)⟩
    rw [(denotes_new fnv1a64 "" 100).value_eq]

end PMap

end Treeless
