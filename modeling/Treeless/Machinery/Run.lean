import Mathlib.Logic.Basic
import Mathlib.Data.List.Basic

/-!
# Machinery/Run — the runs of a labelled transition system

`Run step s as s'`: the system goes from `s` to `s'` by the labels `as`, one `step` after the other.
What every step preserves, every run preserves (`Run.invariant`); an abstract machine that follows
every step follows every run (`Run.simulates`).
-/

namespace Treeless

variable {σ τ α : Type*} {step : σ → α → σ → Prop} {s s' s'' : σ} {a : α} {as bs : List α}

/-- The runs of the transition relation `step`. -/
inductive Run (step : σ → α → σ → Prop) : σ → List α → σ → Prop
  | refl (s : σ) : Run step s [] s
  | cons {s s' s'' : σ} {a : α} {as : List α} :
      step s a s' → Run step s' as s'' → Run step s (a :: as) s''

namespace Run

/-- **An abstract machine that follows every step of the labels `P` follows every run of them.** -/
theorem simulates_on {R : σ → τ → Prop} {abs : τ → α → τ} {P : α → Prop}
    (hstep : ∀ {s a s' t}, P a → R s t → step s a s' → R s' (abs t a))
    (h : Run step s as s') (hP : ∀ a ∈ as, P a) {t : τ} (ht : R s t) : R s' (as.foldl abs t) := by
  induction h generalizing t with
  | refl => exact ht
  | cons hs _ ih =>
    exact ih (fun a ha => hP a (List.mem_cons_of_mem _ ha)) (hstep (hP _ List.mem_cons_self) ht hs)

/-- **An abstract machine that follows every step follows every run.** -/
theorem simulates {R : σ → τ → Prop} {abs : τ → α → τ}
    (hstep : ∀ {s a s' t}, R s t → step s a s' → R s' (abs t a))
    (h : Run step s as s') {t : τ} (ht : R s t) : R s' (as.foldl abs t) :=
  h.simulates_on (P := fun _ => True) (fun _ => hstep) (fun _ _ => trivial) ht

/-- **What every step of the labels `P` preserves, every run of them preserves.** -/
theorem invariant_on {I : σ → Prop} {P : α → Prop}
    (hstep : ∀ {s a s'}, P a → I s → step s a s' → I s') (h : Run step s as s')
    (hP : ∀ a ∈ as, P a) : I s → I s' := by
  induction h with
  | refl => exact id
  | cons hs _ ih =>
    exact fun hi => ih (fun a ha => hP a (List.mem_cons_of_mem _ ha))
      (hstep (hP _ List.mem_cons_self) hi hs)

/-- **What every step preserves, every run preserves.** -/
theorem invariant {I : σ → Prop} (hstep : ∀ {s a s'}, I s → step s a s' → I s')
    (h : Run step s as s') : I s → I s' :=
  h.invariant_on (P := fun _ => True) (fun _ => hstep) fun _ _ => trivial

/-- **What every step preserves of the state and its history holds after every run.** -/
theorem history {R : σ → List α → Prop} (h₀ : R s [])
    (hstep : ∀ {s as a s'}, R s as → step s a s' → R s' (as ++ [a])) (h : Run step s as s') :
    R s' as := by
  have hall : ∀ {past}, R s past → R s' (past ++ as) := by
    clear h₀
    induction h with
    | refl s => exact fun hR => by rwa [List.append_nil]
    | cons hs _ ih => exact fun hR => List.append_cons .. ▸ ih (hstep hR hs)
  exact hall h₀

theorem append (h : Run step s as s') (h' : Run step s' bs s'') : Run step s (as ++ bs) s'' := by
  induction h with
  | refl => exact h'
  | cons hs _ ih => exact .cons hs (ih h')

/-- A run of two lists is a run of the first and one of the second. -/
theorem split : ∀ {as : List α} {s : σ}, Run step s (as ++ bs) s'' →
    ∃ s', Run step s as s' ∧ Run step s' bs s''
  | [], s, h => ⟨s, .refl s, h⟩
  | _ :: _, _, .cons hs h => by
      obtain ⟨s', has, hbs⟩ := split h
      exact ⟨s', .cons hs has, hbs⟩

theorem mono {step' : σ → α → σ → Prop} (hsub : ∀ {s a s'}, step s a s' → step' s a s')
    (h : Run step s as s') : Run step' s as s' := by
  induction h with
  | refl => exact .refl _
  | cons hs _ ih => exact .cons (hsub hs) ih

/-- **A part of the system that goes by `g a` where the system goes by `a`** runs along. -/
theorem project {β : Type*} {step' : τ → β → τ → Prop} {f : σ → τ} {g : α → List β}
    (hstep : ∀ {s a s'}, step s a s' → Run step' (f s) (g a) (f s')) (h : Run step s as s') :
    Run step' (f s) (as.flatMap g) (f s') := by
  induction h with
  | refl => exact .refl _
  | cons hs _ ih => exact (hstep hs).append ih

/-- **What a step function returns** after a list of labels is the end of a run of them. -/
theorem of_foldlM {f : σ → α → Option σ} : ∀ {as : List α} {s : σ},
    as.foldlM f s = some s' → Run (fun s a s' => f s a = some s') s as s'
  | [], s, h => by
      cases h
      exact .refl _
  | a :: as, s, h => by
      obtain ⟨s₁, hs, h⟩ := Option.bind_eq_some_iff.mp h
      exact .cons hs (of_foldlM h)

end Run

end Treeless
