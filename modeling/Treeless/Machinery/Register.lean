import Mathlib.Order.Lattice
import Mathlib.Data.List.Induction

/-!
# Machinery/Register — a register where the newest write wins and removal leaves no trace

A register holds a value with a time, or nothing.  A `put` replaces an older value, a `remove`
clears one that is not newer than itself and is then forgotten: a late older `put` finds the
register empty.

    pre  ‖  put v  ‖  post            v *survives* if every request of post is older

What is left after a run is the newest `put` that survives, and nothing if none does (`run_spec`).
-/

namespace Treeless

namespace Register

variable {V T : Type*} [LinearOrder T]

/-- A request to a register. -/
inductive Req (V T : Type*)
  | put (v : V)
  | remove (t : T)

variable (time : V → T)

/-- What a request makes of the register. -/
def step : Option V → Req V T → Option V
  | none, .put v => some v
  | some o, .put v => if time o < time v then some v else some o
  | none, .remove _ => none
  | some o, .remove t => if t < time o then some o else none

/-- What a list of requests makes of an empty register. -/
def run (reqs : List (Req V T)) : Option V := reqs.foldl (step time) none

/-- A request that leaves a value of time `t` alone. -/
def Spares (t : T) : Req V T → Prop
  | .put v => time v ≤ t
  | .remove t' => t' < t

/-- After some `put` of `v`, every request leaves `v` alone. -/
def Survives (reqs : List (Req V T)) (v : V) : Prop :=
  ∃ pre post, reqs = pre ++ .put v :: post ∧ ∀ r ∈ post, Spares time (time v) r

theorem run_snoc (reqs : List (Req V T)) (r : Req V T) :
    run time (reqs ++ [r]) = step time (run time reqs) r := by
  rw [run, List.foldl_append]
  rfl

variable {time}

theorem Survives.mem {reqs : List (Req V T)} {v : V} (h : Survives time reqs v) :
    Req.put v ∈ reqs := by
  obtain ⟨pre, post, rfl, -⟩ := h
  exact List.mem_append_right _ List.mem_cons_self

theorem survives_snoc (reqs : List (Req V T)) (r : Req V T) (v : V) :
    Survives time (reqs ++ [r]) v
      ↔ r = .put v ∨ (Survives time reqs v ∧ Spares time (time v) r) := by
  constructor
  · rintro ⟨pre, post, heq, hpost⟩
    rcases List.eq_nil_or_concat post with rfl | ⟨post', r', rfl⟩
    · exact Or.inl (List.singleton_inj.mp (List.append_inj' heq rfl).2)
    · rw [List.concat_eq_append] at heq hpost
      have heq' : reqs ++ [r] = (pre ++ .put v :: post') ++ [r'] := by
        rw [heq, List.append_assoc, List.cons_append]
      obtain ⟨hreqs, hr⟩ := List.append_inj' heq' rfl
      obtain rfl := List.singleton_inj.mp hr
      exact Or.inr ⟨⟨pre, post', hreqs, fun x hx => hpost x (List.mem_append_left _ hx)⟩,
        hpost r (List.mem_append_right _ (List.mem_singleton_self r))⟩
  · rintro (rfl | ⟨⟨pre, post, rfl, hpost⟩, hr⟩)
    · exact ⟨reqs, [], rfl, fun r hr => nomatch hr⟩
    · refine ⟨pre, post ++ [r], by simp, fun r' hr' => ?_⟩
      rcases List.mem_append.mp hr' with hr' | hr'
      · exact hpost r' hr'
      · exact List.mem_singleton.mp hr' ▸ hr

/-- What a list of requests leaves: a `put` that survives, at least as new as every other one that
does; or nothing, if none survives. -/
def Leaves (time : V → T) (reqs : List (Req V T)) : Option V → Prop
  | some u => Survives time reqs u ∧ ∀ w, Survives time reqs w → time w ≤ time u
  | none => ∀ w, ¬ Survives time reqs w

section Leaves

variable {reqs : List (Req V T)}

/-- A `put` newer than all that survive takes their place. -/
theorem leaves_put {v : V} (hnew : ∀ w, Survives time reqs w → time w ≤ time v) :
    Leaves time (reqs ++ [.put v]) (some v) := by
  refine ⟨(survives_snoc reqs _ v).mpr (Or.inl rfl), fun w hw => ?_⟩
  rcases (survives_snoc reqs _ w).mp hw with hw | ⟨hw, -⟩
  · rw [Req.put.inj hw]
  · exact hnew w hw

/-- A request that spares what is left, and is not newer, changes nothing. -/
theorem Leaves.spare {o : V} (h : Leaves time reqs (some o)) {r : Req V T}
    (hr : Spares time (time o) r) : Leaves time (reqs ++ [r]) (some o) := by
  refine ⟨(survives_snoc reqs _ o).mpr (Or.inr ⟨h.1, hr⟩), fun w hw => ?_⟩
  rcases (survives_snoc reqs _ w).mp hw with rfl | ⟨hw, -⟩
  · exact hr
  · exact h.2 w hw

/-- A `remove` that spares none of what survives leaves nothing. -/
theorem leaves_remove {t : T} (hold : ∀ w, Survives time reqs w → time w ≤ t) :
    Leaves time (reqs ++ [.remove t]) none := fun w hw => by
  rcases (survives_snoc reqs _ w).mp hw with hw | ⟨hw, hspared⟩
  · cases hw
  · exact not_le.mpr hspared (hold w hw)

/-- **One request more.** -/
theorem Leaves.step {o : Option V} (h : Leaves time reqs o) (r : Req V T) :
    Leaves time (reqs ++ [r]) (step time o r) := by
  cases o with
  | none =>
    cases r with
    | put v => exact leaves_put fun w hw => absurd hw (h w)
    | remove t => exact leaves_remove fun w hw => absurd hw (h w)
  | some o =>
    cases r with
    | put v =>
      rw [Register.step]
      split
      · next hlt => exact leaves_put fun w hw => (h.2 w hw).trans hlt.le
      · next hge => exact h.spare (not_lt.mp hge)
    | remove t =>
      rw [Register.step]
      split
      · next hlt => exact h.spare hlt
      · next hge => exact leaves_remove fun w hw => (h.2 w hw).trans (not_lt.mp hge)

end Leaves

/-- **What a run leaves.** -/
theorem run_spec (reqs : List (Req V T)) : Leaves time reqs (run time reqs) := by
  induction reqs using List.reverseRecOn with
  | nil => exact fun w hw => nomatch hw.mem
  | append_singleton reqs r ih =>
    rw [run_snoc]
    exact ih.step r

section Run

variable {reqs : List (Req V T)} {u w : V}

theorem leaves_of_run (h : run time reqs = some u) : Leaves time reqs (some u) := h ▸ run_spec reqs

theorem survives_of_run (h : run time reqs = some u) : Survives time reqs u := (leaves_of_run h).1

theorem le_of_survives (h : run time reqs = some u) (hw : Survives time reqs w) :
    time w ≤ time u := (leaves_of_run h).2 w hw

theorem exists_run_of_survives (hw : Survives time reqs w) : ∃ u, run time reqs = some u := by
  refine Option.ne_none_iff_exists'.mp fun hnone => ?_
  have hleft : Leaves time reqs none := hnone ▸ run_spec reqs
  exact hleft w hw

end Run

/-- With `put`s alone, every `put` has one that survives and is at least as new. -/
theorem exists_survivor {reqs : List (Req V T)} (hput : ∀ r ∈ reqs, ∃ v, r = .put v) {w : V}
    (hw : Req.put w ∈ reqs) : ∃ u, Survives time reqs u ∧ time w ≤ time u := by
  induction reqs using List.reverseRecOn with
  | nil => nomatch hw
  | append_singleton reqs r ih =>
    obtain ⟨v, rfl⟩ := hput r (List.mem_append_right _ (List.mem_singleton_self r))
    simp only [survives_snoc]
    rcases List.mem_append.mp hw with hw | hw
    · obtain ⟨u, hu, hle⟩ := ih (fun r hr => hput r (List.mem_append_left _ hr)) hw
      rcases le_total (time v) (time u) with hvu | huv
      · exact ⟨u, Or.inr ⟨hu, hvu⟩, hle⟩
      · exact ⟨v, Or.inl rfl, hle.trans huv⟩
    · exact ⟨v, Or.inl rfl, (Req.put.inj (List.mem_singleton.mp hw)) ▸ le_rfl⟩

section Puts

variable {reqs : List (Req V T)} {u w : V}

/-- With `put`s alone, no `put` is newer than what is left. -/
theorem le_of_put (hput : ∀ r ∈ reqs, ∃ v, r = .put v) (h : run time reqs = some u)
    (hw : Req.put w ∈ reqs) : time w ≤ time u := by
  obtain ⟨u', hu', hle⟩ := exists_survivor hput hw
  exact hle.trans (le_of_survives h hu')

/-- **With `put`s alone, the first of the newest is left**: what came before it is older. -/
theorem first_of_run (hput : ∀ r ∈ reqs, ∃ v, r = .put v) (h : run time reqs = some u) :
    ∃ pre post, reqs = pre ++ .put u :: post ∧ ∀ w, Req.put w ∈ pre → time w < time u := by
  induction reqs using List.reverseRecOn with
  | nil => cases h
  | append_singleton reqs r ih =>
    have hreqs : ∀ r ∈ reqs, ∃ v, r = .put v := fun r hr => hput r (List.mem_append_left _ hr)
    obtain ⟨v, rfl⟩ := hput r (List.mem_append_right _ (List.mem_singleton_self r))
    rw [run_snoc] at h
    cases ho : run time reqs with
    | none =>
      rw [ho] at h
      obtain rfl := Option.some.inj h
      refine ⟨reqs, [], rfl, fun w hw => ?_⟩
      obtain ⟨u', hu', -⟩ : ∃ u, Survives time reqs u ∧ time w ≤ time u :=
        exists_survivor hreqs hw
      obtain ⟨o, ho'⟩ := exists_run_of_survives hu'
      cases ho.symm.trans ho'
    | some o =>
      rw [ho, step] at h
      split at h
      · next hlt =>
        obtain rfl := Option.some.inj h
        exact ⟨reqs, [], rfl, fun w hw => (le_of_put hreqs ho hw).trans_lt hlt⟩
      · obtain rfl := Option.some.inj h
        obtain ⟨pre, post, rfl, hpre⟩ := ih hreqs ho
        exact ⟨pre, post ++ [.put v], by simp, hpre⟩

end Puts

end Register

end Treeless
