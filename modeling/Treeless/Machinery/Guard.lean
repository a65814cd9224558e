import Treeless.Machinery.Run

/-!
# Machinery/Guard — what has to be asked of the steps of a system

A guard admits some of the steps of a system.  It is *exact* for a set of bad states if no run of
admitted steps meets one, while behind every step that is not admitted there is one, by admitted
steps: what the guard asks for is enough, and each step it refuses is to blame.
-/

namespace Treeless

variable {σ α : Type*} {step : σ → α → σ → Prop} {guard : σ → α → Prop} {bad : σ → Prop} {s₀ s : σ}

/-- The steps that a guard admits. -/
def Guarded (step : σ → α → σ → Prop) (guard : σ → α → Prop) (s : σ) (a : α) (s' : σ) : Prop :=
  guard s a ∧ step s a s'

/-- Admitted steps lead to a bad state. -/
def LeadsTo (step : σ → α → σ → Prop) (guard : σ → α → Prop) (bad : σ → Prop) (s : σ) : Prop :=
  ∃ as s', Run (Guarded step guard) s as s' ∧ bad s'

/-- **The guard is exact** for the bad states: they are not met by admitted steps from `s₀`, and a
step from there is admitted if and only if they are not met behind it. -/
def ExactGuard (step : σ → α → σ → Prop) (guard : σ → α → Prop) (bad : σ → Prop) (s₀ : σ) : Prop :=
  ∀ as s, Run (Guarded step guard) s₀ as s →
    ¬ bad s ∧ ∀ a s', step s a s' → (guard s a ↔ ¬ LeadsTo step guard bad s')

theorem LeadsTo.now (h : bad s) : LeadsTo step guard bad s := ⟨[], s, .refl s, h⟩

theorem LeadsTo.cons {a : α} {s' : σ} (hg : guard s a) (hs : step s a s')
    (h : LeadsTo step guard bad s') : LeadsTo step guard bad s := by
  obtain ⟨as, s'', hrun, hbad⟩ := h
  exact ⟨a :: as, s'', .cons ⟨hg, hs⟩ hrun, hbad⟩

theorem LeadsTo.after {as : List α} {s' : σ} (hrun : Run (Guarded step guard) s as s')
    (h : LeadsTo step guard bad s') : LeadsTo step guard bad s := by
  obtain ⟨bs, s'', hrun', hbad⟩ := h
  exact ⟨as ++ bs, s'', hrun.append hrun', hbad⟩

/-- **An exact guard from an invariant**: admitted steps keep it, no state in it is bad, and a step
from it that is not admitted leads to a bad state. -/
theorem ExactGuard.of_invariant {I : σ → Prop} (h₀ : I s₀)
    (hstep : ∀ {s a s'}, I s → guard s a → step s a s' → I s') (hsafe : ∀ {s}, I s → ¬ bad s)
    (hneed : ∀ {s a s'}, I s → ¬ guard s a → step s a s' → LeadsTo step guard bad s') :
    ExactGuard step guard bad s₀ := by
  have hinv : ∀ {s as s'}, Run (Guarded step guard) s as s' → I s → I s' := fun hrun =>
    hrun.invariant fun hI hs => hstep hI hs.1 hs.2
  intro as s hrun
  have hI := hinv hrun h₀
  refine ⟨hsafe hI, fun a s' hs => ⟨fun hg => ?_, fun hno => ?_⟩⟩
  · rintro ⟨as', s'', hrun', hbad⟩
    exact hsafe (hinv hrun' (hstep hI hg hs)) hbad
  · by_contra hg
    exact hno (hneed hI hg hs)

end Treeless
