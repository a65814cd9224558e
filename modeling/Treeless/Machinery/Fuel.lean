import Treeless.Machinery.Bytes
import Mathlib.Order.Lattice

/-!
# Machinery/Fuel — computations by fuel

    x 0   x 1   x 2   …          ⊥  ⊥  …  ⊥  r  r  r  …

A recursion that may not end is given fuel, and is cut off (`Fault.endless`) where it runs out.  The
family is *steady* if more fuel changes nothing but that: then it ends (`Halts`) if some amount is
enough, and the results of sequences and loops do not depend on which.  A call that needs none ends
(`Stops`) unless it is a loop that goes round.
-/

namespace Treeless

universe u

/-! ## Calls that end -/

/-- The call ends, and what it returns satisfies `P`. -/
abbrev Call.Stops {α : Type u} (P : α → Prop) (x : Call α) : Prop := x.Ends (· ≠ .endless) P

namespace Call.Stops

variable {α β : Type u} {P : α → Prop} {Q : β → Prop} {x : Call α}

theorem ne_endless (h : x.Stops P) : x ≠ .error .endless := fun heq => h.of_error heq rfl

/-- Whatever the first half returns. -/
theorem bind {f : α → Call β} (h : x.Stops fun _ => True) (hf : ∀ a, (f a).Stops Q) :
    (x >>= f).Stops Q := h.seq fun a _ => hf a

theorem map (f : α → β) (h : x.Stops P) : (f <$> x).Stops fun _ => True := by
  cases x with
  | ok a => exact trivial
  | error e => exact h

end Call.Stops

/-! ## More fuel -/

namespace Call

/-- `x` is `y`, or was cut off before. -/
def CutOff {α : Type u} (x y : Call α) : Prop := x = .error .endless ∨ x = y

namespace CutOff

variable {α β : Type u} {x y z : Call α}

theorem refl (x : Call α) : CutOff x x := Or.inr rfl

theorem trans (h : CutOff x y) (h' : CutOff y z) : CutOff x z := by
  rcases h with h | rfl
  · exact Or.inl h
  · exact h'

theorem eq (h : CutOff x y) (hx : x ≠ .error .endless) : x = y := h.resolve_left hx

/-- Both halves of a sequence may be cut off. -/
theorem bind {f g : α → Call β} (h : CutOff x y) (hf : ∀ a, CutOff (f a) (g a)) :
    CutOff (x >>= f) (y >>= g) := by
  rcases h with rfl | rfl
  · exact Or.inl rfl
  · cases x with
    | ok a => exact hf a
    | error e => exact Or.inr rfl

theorem map (f : α → β) (h : CutOff x y) : CutOff (f <$> x) (f <$> y) := by
  rcases h with rfl | rfl
  · exact Or.inl rfl
  · exact refl _

/-- Every turn of a loop may be cut off. -/
theorem foldlM {γ : Type*} {f g : α → γ → Call α} (hf : ∀ a c, CutOff (f a c) (g a c)) :
    ∀ (cs : List γ) (a : α), CutOff (cs.foldlM f a) (cs.foldlM g a)
  | [], a => refl _
  | c :: cs, a => by
      rw [List.foldlM_cons, List.foldlM_cons]
      exact (hf a c).bind (foldlM hf cs)

end CutOff

/-- With more fuel the computation is the same, or goes on where it was cut off. -/
def Steady {α : Type u} (x : ℕ → Call α) : Prop := ∀ n, CutOff (x n) (x (n + 1))

/-- Some amount of fuel is enough. -/
def Halts {α : Type u} (x : ℕ → Call α) : Prop := ∃ n, x n ≠ .error .endless

section

variable {α β : Type u} {x : ℕ → Call α}

theorem Steady.le (h : Steady x) {m n : ℕ} (hle : m ≤ n) : CutOff (x m) (x n) := by
  induction n, hle using Nat.le_induction with
  | base => exact .refl _
  | succ n _ ih => exact ih.trans (h n)

theorem Halts.of_succ (h : Halts fun n => x (n + 1)) : Halts x := by
  obtain ⟨n, hn⟩ := h
  exact ⟨n + 1, hn⟩

theorem Halts.map (f : α → β) (h : Halts x) : Halts fun n => f <$> x n := by
  obtain ⟨n, hn⟩ := h
  refine ⟨n, fun hend => hn ?_⟩
  dsimp only at hend
  cases hxn : x n with
  | ok a =>
    rw [hxn] at hend
    cases hend
  | error e =>
    rw [hxn] at hend
    exact congrArg Except.error (Except.error.inj hend)

/-- **A sequence ends** if its halves do. -/
theorem Halts.bind {f : ℕ → α → Call β} (hx : Steady x) (hf : ∀ a, Steady fun n => f n a)
    (h : Halts x) (hrest : ∀ n a, x n = .ok a → Halts fun n => f n a) :
    Halts fun n => x n >>= f n := by
  obtain ⟨n, hn⟩ := h
  cases hxn : x n with
  | error e =>
    refine ⟨n, fun hend => hn ?_⟩
    dsimp only at hend
    rw [hxn] at hend ⊢
    exact congrArg Except.error (Except.error.inj hend)
  | ok a =>
    obtain ⟨m, hm⟩ := hrest n a hxn
    refine ⟨max n m, ?_⟩
    dsimp only
    rw [← (hx.le (le_max_left n m)).eq hn, hxn, ok_bind,
      ← ((hf a).le (le_max_right n m)).eq hm]
    exact hm

/-- **A loop ends** if every turn does, from where the turns before it can lead. -/
theorem Halts.foldlM {γ : Type*} {f : ℕ → α → γ → Call α} {P : α → Prop}
    (hf : ∀ a c, Steady fun n => f n a c) (hkeep : ∀ n a c, P a → (f n a c).Returns P) :
    ∀ {cs : List γ} {a : α}, P a → (∀ c ∈ cs, ∀ a, P a → Halts fun n => f n a c) →
      Halts fun n => cs.foldlM (f n) a
  | [], a, _, _ => ⟨0, fun h => by cases h⟩
  | c :: cs, a, ha, hturn => by
      simp only [List.foldlM_cons]
      refine Halts.bind (hf a c) (fun b n => CutOff.foldlM (fun a c => hf a c n) cs b)
        (hturn c List.mem_cons_self a ha) fun n b hb => ?_
      exact foldlM hf hkeep (hkeep n a c ha b hb) fun d hd => hturn d (List.mem_cons_of_mem c hd)

end

end Call

end Treeless
