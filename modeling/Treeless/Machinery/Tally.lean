import Mathlib.Algebra.BigOperators.Group.Finset.Basic
import Mathlib.Logic.Function.Basic

/-!
# Machinery/Tally — a total over the entries of a dictionary

`Tally w m s`: the dictionary `m` has finitely many keys, and the weights of its entries sum up to
`s`.  An update of one entry moves the total by what it brings, less what it takes away
(`Tally.update`); dictionaries whose entries weigh the same have the same total.
-/

namespace Treeless

variable {κ ν G : Type*} [AddCommGroup G] {w : κ → ν → G} {m m' : κ → Option ν} {s s' : G}

/-- The weight of the entry of a key, if there is one. -/
def entryWeight (w : κ → ν → G) (m : κ → Option ν) (k : κ) : G := (m k).elim 0 (w k)

/-- The weights of the entries of `m` sum up to `s`. -/
def Tally (w : κ → ν → G) (m : κ → Option ν) (s : G) : Prop :=
  ∃ keys : Finset κ, (∀ k, k ∈ keys ↔ m k ≠ none) ∧ s = ∑ k ∈ keys, entryWeight w m k

namespace Tally

theorem empty (w : κ → ν → G) : Tally w (fun _ => none) 0 :=
  ⟨∅, fun _ => iff_of_false (Finset.notMem_empty _) fun h => h rfl, rfl⟩

variable [DecidableEq κ]

/-- The total without the entry of `k`. -/
theorem sum_erase {keys : Finset κ} (hmem : ∀ k, k ∈ keys ↔ m k ≠ none) (k : κ) :
    ∑ a ∈ keys.erase k, entryWeight w m a
      = ∑ a ∈ keys, entryWeight w m a - entryWeight w m k := by
  by_cases hk : k ∈ keys
  · exact eq_sub_of_add_eq' (Finset.add_sum_erase keys _ hk)
  · have hnone : m k = none := not_not.mp fun h => hk ((hmem k).mpr h)
    rw [Finset.erase_eq_of_notMem hk, entryWeight, hnone, Option.elim_none, sub_zero]

/-- **An update of one entry.** -/
theorem update (h : Tally w m s) (k : κ) (v : Option ν) :
    Tally w (Function.update m k v) (s - entryWeight w m k + v.elim 0 (w k)) := by
  obtain ⟨keys, hmem, rfl⟩ := h
  have hrest : ∑ a ∈ keys.erase k, entryWeight w (Function.update m k v) a
      = ∑ a ∈ keys, entryWeight w m a - entryWeight w m k := by
    rw [← sum_erase hmem k]
    refine Finset.sum_congr rfl fun a ha => ?_
    rw [entryWeight, Function.update_of_ne (Finset.ne_of_mem_erase ha), entryWeight]
  cases v with
  | none =>
    refine ⟨keys.erase k, fun a => ?_, by rw [hrest, Option.elim_none, add_zero]⟩
    rw [Finset.mem_erase, hmem]
    by_cases ha : a = k
    · subst ha
      rw [Function.update_self]
      exact iff_of_false (fun h => h.1 rfl) fun h => h rfl
    · rw [Function.update_of_ne ha]
      exact and_iff_right ha
  | some v =>
    refine ⟨insert k (keys.erase k), fun a => ?_, ?_⟩
    · rw [Finset.mem_insert, Finset.mem_erase, hmem]
      by_cases ha : a = k
      · subst ha
        rw [Function.update_self]
        exact iff_of_true (Or.inl rfl) (Option.some_ne_none _)
      · rw [Function.update_of_ne ha, or_iff_right ha]
        exact and_iff_right ha
    · rw [Finset.sum_insert (Finset.notMem_erase k keys), hrest, add_comm]
      congr 1
      rw [entryWeight, Function.update_self]

/-- **Entries that weigh the same have the same total.** -/
theorem eq_of_weight_eq (h : Tally w m s) (h' : Tally w m' s')
    (hw : ∀ k, entryWeight w m k = entryWeight w m' k) : s = s' := by
  obtain ⟨keys, hmem, rfl⟩ := h
  obtain ⟨keys', hmem', rfl⟩ := h'
  have hzero : ∀ {n : κ → Option ν} {K : Finset κ}, (∀ k, k ∈ K ↔ n k ≠ none) →
      ∀ k ∉ K, entryWeight w n k = 0 := fun hK k hk => by
    rw [entryWeight, not_not.mp fun h => hk ((hK k).mpr h), Option.elim_none]
  calc ∑ k ∈ keys, entryWeight w m k
      = ∑ k ∈ keys ∪ keys', entryWeight w m k :=
        Finset.sum_subset Finset.subset_union_left fun k _ hk => hzero hmem k hk
    _ = ∑ k ∈ keys ∪ keys', entryWeight w m' k := Finset.sum_congr rfl fun k _ => hw k
    _ = ∑ k ∈ keys', entryWeight w m' k :=
        (Finset.sum_subset Finset.subset_union_right fun k _ hk => hzero hmem' k hk).symm

end Tally

end Treeless
