import Mathlib.Data.List.Sort
import Mathlib.Data.String.Basic
import Mathlib.Order.Lattice

/-!
# Machinery/Names — the order of numbered names

A directory lists its names in lexicographic order.  The decimal names of two successive numbers
stand in that order, except where the second has a digit more:

    "8" < "9"        "10" < "9"        "19" < "20"        "100" < "99"

* `toString_lt_succ_iff`: `n` sorts before `n + 1` exactly if `n + 1` is not a power of ten;
* `find?_insertionSort_eq_some`: the first of the sorted names that passes a test is the least one.
-/

namespace Treeless

/-- Two words that part at a letter, smaller in the first. -/
def Parts (u v : List Char) : Prop :=
  ∃ p x y s t, u = p ++ x :: s ∧ v = p ++ y :: t ∧ x < y

namespace Parts

variable {u v : List Char}

theorem append_left (p : List Char) (h : Parts u v) : Parts (p ++ u) (p ++ v) := by
  obtain ⟨q, x, y, s, t, rfl, rfl, hxy⟩ := h
  exact ⟨p ++ q, x, y, s, t, (List.append_assoc ..).symm, (List.append_assoc ..).symm, hxy⟩

theorem append_right (s t : List Char) (h : Parts u v) : Parts (u ++ s) (v ++ t) := by
  obtain ⟨p, x, y, s', t', rfl, rfl, hxy⟩ := h
  exact ⟨p, x, y, s' ++ s, t' ++ t, List.append_assoc .., List.append_assoc .., hxy⟩

theorem lt (h : Parts u v) : u < v := by
  obtain ⟨p, x, y, s, t, rfl, rfl, hxy⟩ := h
  exact List.append_left_lt (List.cons_lt_cons_iff.mpr (Or.inl hxy))

end Parts

/-- A power of ten above one. -/
def IsPowTen (n : ℕ) : Prop := ∃ k, n = 10 ^ (k + 1)

theorem isPowTen_mul_ten {n : ℕ} (hn : 1 < n) : IsPowTen (10 * n) ↔ IsPowTen n := by
  constructor
  · rintro ⟨k, hk⟩
    rw [pow_succ', Nat.mul_right_inj (by decide)] at hk
    cases k with
    | zero => omega
    | succ k => exact ⟨k, hk⟩
  · rintro ⟨k, rfl⟩
    exact ⟨k + 1, (pow_succ' ..).symm⟩

theorem not_isPowTen {n : ℕ} (h : n % 10 ≠ 0) : ¬ IsPowTen n := by
  rintro ⟨k, rfl⟩
  rw [pow_succ, Nat.mul_mod_left] at h
  exact h rfl

theorem toDigits_snoc {a b : ℕ} (ha : 0 < a) (hb : b < 10) :
    Nat.toDigits 10 (10 * a + b) = Nat.toDigits 10 a ++ [Nat.digitChar b] := by
  rw [← Nat.toDigits_append_toDigits (by decide) ha hb, Nat.toDigits_of_lt_base hb]

theorem digitChar_lt_succ : ∀ {b : ℕ}, b < 9 → Nat.digitChar b < Nat.digitChar (b + 1) := by
  decide

/-- **The digits of successive numbers part**, the wrong way round at a power of ten. -/
theorem parts_succ (n : ℕ) :
    (IsPowTen (n + 1) → Parts (Nat.toDigits 10 (n + 1)) (Nat.toDigits 10 n))
      ∧ (¬ IsPowTen (n + 1) → Parts (Nat.toDigits 10 n) (Nat.toDigits 10 (n + 1))) := by
  induction n using Nat.strongRecOn with
  | ind n ih =>
    rcases Nat.lt_or_ge n 10 with hlt | hge
    · rcases Nat.lt_or_ge n 9 with hlt | hge
      · -- one digit each
        refine ⟨?_, fun _ => ?_⟩
        · rintro ⟨k, hk⟩
          have := Nat.one_le_pow k 10 (by decide)
          rw [pow_succ] at hk
          omega
        · rw [Nat.toDigits_of_lt_base (by omega), Nat.toDigits_of_lt_base (by omega)]
          exact ⟨[], _, _, [], [], rfl, rfl, digitChar_lt_succ hlt⟩
      · obtain rfl : n = 9 := by omega
        exact ⟨fun _ => ⟨[], '1', '9', ['0'], [], rfl, rfl, by decide⟩,
          fun hnot => absurd ⟨0, rfl⟩ hnot⟩
    · have hdiv : 0 < n / 10 := Nat.div_pos hge (by decide)
      have hn : Nat.toDigits 10 n = Nat.toDigits 10 (n / 10) ++ [Nat.digitChar (n % 10)] := by
        rw [← toDigits_snoc hdiv (Nat.mod_lt _ (by decide)), Nat.div_add_mod]
      rw [hn]
      rcases Nat.lt_or_ge (n % 10) 9 with hmod | hmod
      · -- the last digit counts on
        have hsucc : n + 1 = 10 * (n / 10) + (n % 10 + 1) := by omega
        rw [hsucc, toDigits_snoc hdiv (by omega)]
        refine ⟨fun h => absurd h (not_isPowTen (by omega)), fun _ => Parts.append_left _ ?_⟩
        exact ⟨[], _, _, [], [], rfl, rfl, digitChar_lt_succ hmod⟩
      · -- the last digit starts again, and those before it count on
        have hsucc : n + 1 = 10 * (n / 10 + 1) := by omega
        have hdigits := toDigits_snoc (Nat.succ_pos (n / 10)) (show 0 < 10 by decide)
        rw [Nat.add_zero] at hdigits
        rw [hsucc, hdigits, isPowTen_mul_ten (by omega)]
        obtain ⟨h₁, h₂⟩ := ih (n / 10) (by omega)
        exact ⟨fun h => (h₁ h).append_right _ _, fun h => (h₂ h).append_right _ _⟩

/-- **Numbered names stand in the order of their numbers**, except at a power of ten. -/
theorem toString_lt_succ_iff (start : String) (n : ℕ) :
    start ++ toString n < start ++ toString (n + 1) ↔ ¬ IsPowTen (n + 1) := by
  have hlist : ∀ m : ℕ, (start ++ toString m).toList = start.toList ++ Nat.toDigits 10 m :=
    fun m => by rw [String.toList_append]; exact congrArg _ (String.toList_ofList ..)
  rw [String.lt_iff_toList_lt, hlist, hlist]
  constructor
  · intro hlt hpow
    exact lt_asymm hlt (((parts_succ n).1 hpow).append_left _).lt
  · intro hnot
    exact (((parts_succ n).2 hnot).append_left _).lt

/-! ## Searches -/

/-- Two words that end at the first separator. -/
theorem eq_of_prefix_sep {α : Type*} {sep : α} : ∀ {as bs s t : List α}, sep ∉ as → sep ∉ bs →
    as ++ sep :: s <+: bs ++ sep :: t → as = bs
  | [], [], _, _, _, _, _ => rfl
  | [], b :: bs, _, _, _, hbs, h =>
      absurd ((List.cons_prefix_cons.mp h).1 ▸ List.mem_cons_self) hbs
  | a :: as, [], _, _, has, _, h =>
      absurd ((List.cons_prefix_cons.mp h).1 ▸ List.mem_cons_self) has
  | a :: as, b :: bs, _, _, has, hbs, h => by
      obtain ⟨rfl, htail⟩ := List.cons_prefix_cons.mp h
      rw [eq_of_prefix_sep (fun hm => has (List.mem_cons_of_mem _ hm))
        (fun hm => hbs (List.mem_cons_of_mem _ hm)) htail]

theorem underscore_notMem_toDigits (n : ℕ) : '_' ∉ Nat.toDigits 10 n := fun hmem =>
  absurd (Nat.isDigit_of_mem_toDigits (by decide) (by decide) hmem) (by decide)

/-- A search that finds nothing but `b`, and finds it somewhere. -/
theorem findSome?_eq_some_of_forall {α β : Type*} {f : α → Option β} {b : β} : ∀ {as : List α},
    (∀ a ∈ as, f a = none ∨ f a = some b) → (∃ a ∈ as, f a = some b) → as.findSome? f = some b
  | [], _, ⟨_, ha, _⟩ => by cases ha
  | a :: as, hall, ⟨a', ha', hb⟩ => by
      rw [List.findSome?_cons]
      rcases hall a List.mem_cons_self with hnone | hsome
      · rw [hnone]
        rcases List.mem_cons.mp ha' with rfl | ha'
        · cases hnone.symm.trans hb
        · exact findSome?_eq_some_of_forall (fun x hx => hall x (List.mem_cons_of_mem _ hx))
            ⟨a', ha', hb⟩
      · rw [hsome]

section
variable {α : Type*} [LinearOrder α] {p : α → Bool} {as : List α} {a b : α}

theorem le_of_find?_insertionSort (h : (as.insertionSort (· ≤ ·)).find? p = some a) (hb : b ∈ as)
    (hpb : p b) : a ≤ b := by
  obtain ⟨-, pre, post, hsplit, hpre⟩ := List.find?_eq_some_iff_append.mp h
  have hsorted := List.pairwise_insertionSort (· ≤ ·) as
  rw [hsplit, List.pairwise_append, List.pairwise_cons] at hsorted
  have hmem := (List.mem_insertionSort (· ≤ ·)).mpr hb
  rw [hsplit, List.mem_append, List.mem_cons] at hmem
  rcases hmem with hmem | rfl | hmem
  · have hnot := hpre b hmem
    rw [hpb] at hnot
    cases hnot
  · exact le_rfl
  · exact hsorted.2.1.1 b hmem

/-- **The first of the sorted names that passes a test is the least.** -/
theorem find?_insertionSort_eq_some : (as.insertionSort (· ≤ ·)).find? p = some a
    ↔ (a ∈ as ∧ p a) ∧ ∀ b ∈ as, p b → a ≤ b := by
  constructor
  · intro h
    have hmem := (List.mem_insertionSort (· ≤ ·)).mp (List.mem_of_find?_eq_some h)
    exact ⟨⟨hmem, List.find?_some h⟩, fun b hb hpb => le_of_find?_insertionSort h hb hpb⟩
  · rintro ⟨⟨hmem, hpa⟩, hle⟩
    have hsome : ((as.insertionSort (· ≤ ·)).find? p).isSome :=
      List.find?_isSome.mpr ⟨a, (List.mem_insertionSort (· ≤ ·)).mpr hmem, hpa⟩
    obtain ⟨a', h⟩ := Option.isSome_iff_exists.mp hsome
    have hmem' := (List.mem_insertionSort (· ≤ ·)).mp (List.mem_of_find?_eq_some h)
    rw [h, le_antisymm (le_of_find?_insertionSort h hmem hpa) (hle a' hmem' (List.find?_some h))]

end

end Treeless
