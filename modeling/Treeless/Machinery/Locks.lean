import Mathlib.Data.List.Nodup
import Mathlib.Data.Set.Basic
import Mathlib.Logic.Function.Basic

/-!
# Machinery/Locks — threads that lock and unlock

A thread runs a program (`Prog`): it locks and unlocks mutexes, and between that it works on shared
data, which decide how it goes on.  A mutex is free or owned by one thread.  Programs that respect
a discipline `may` ask for a mutex only if `may` admits it next to those they hold
(`Disciplined.step`).  In a deadlock somebody asks against the order: for a mutex of no higher rank
than one it holds (`Deadlocked.exists_descent`).
-/

namespace Treeless

variable {τ σ Λ : Type}

/-- What a thread has still to do. -/
inductive Prog (σ Λ : Type) : Type
  | done
  /-- Locks `l`, does `f`, and goes on as the data say. -/
  | lock (l : Λ) (f : σ → σ) (next : σ → Prog σ Λ)
  | unlock (l : Λ) (next : σ → Prog σ Λ)

/-- The program asks for nothing that `may` does not admit, unlocks what it holds and ends with
nothing held. -/
def Prog.Respects [DecidableEq Λ] (may : List Λ → Λ → Prop) : List Λ → Prog σ Λ → Prop
  | held, done => held = []
  | held, lock l _ next => l ∉ held ∧ may held l ∧ ∀ d, (next d).Respects may (l :: held)
  | held, unlock l next => l ∈ held ∧ ∀ d, (next d).Respects may (held.erase l)

/-- Threads with their programs, mutexes with their owners, and the data. -/
structure LockState (τ σ Λ : Type) where
  code : τ → Prog σ Λ
  owner : Λ → Option τ
  data : σ

/-- A thread starts a program, or makes a step of its own. -/
inductive LockEvent (τ σ Λ : Type)
  | start (t : τ) (p : Prog σ Λ)
  | move (t : τ)

namespace LockState

/-- Nothing runs. -/
def idle (d : σ) : LockState τ σ Λ := ⟨fun _ => .done, fun _ => none, d⟩

variable (s : LockState τ σ Λ)

section

variable [DecidableEq τ] [DecidableEq Λ]

/-- The next step of a thread; there is none while the mutex it asks for is owned. -/
def move (t : τ) : Option (LockState τ σ Λ) :=
  match s.code t with
  | .done => none
  | .lock l f next =>
    if s.owner l = none then
      some ⟨Function.update s.code t (next (f s.data)), Function.update s.owner l (some t),
        f s.data⟩
    else none
  | .unlock l next =>
    some ⟨Function.update s.code t (next s.data), Function.update s.owner l none, s.data⟩

/-- The steps of threads that start the programs `allowed`. -/
def Step (allowed : τ → Prog σ Λ → Prop) (s : LockState τ σ Λ) :
    LockEvent τ σ Λ → LockState τ σ Λ → Prop
  | .start t p, s' =>
    s.code t = .done ∧ allowed t p ∧ s' = { s with code := Function.update s.code t p }
  | .move t, s' => s.move t = some s'

end

def Holds (t : τ) (l : Λ) : Prop := s.owner l = some t

/-- The thread is at the lock of `l`. -/
def Wants (t : τ) (l : Λ) : Prop := ∃ f next, s.code t = .lock l f next

/-- **A set of threads each waiting for a mutex held by another of the set.** -/
def Deadlocked : Prop :=
  ∃ D : Set τ, D.Nonempty ∧ ∀ t ∈ D, ∃ l, s.Wants t l ∧ ∃ u ∈ D, u ≠ t ∧ s.Holds u l

variable {s}

theorem Wants.unique {t : τ} {l l' : Λ} (h : s.Wants t l) (h' : s.Wants t l') : l = l' := by
  obtain ⟨f, next, hcode⟩ := h
  obtain ⟨f', next', hcode'⟩ := h'
  cases hcode.symm.trans hcode'
  rfl

/-- **A deadlock needs somebody who asks against the order**, whatever the order is, if the ranks
are bounded. -/
theorem Deadlocked.exists_descent {D : Set τ} (hne : D.Nonempty)
    (hD : ∀ t ∈ D, ∃ l, s.Wants t l ∧ ∃ u ∈ D, u ≠ t ∧ s.Holds u l) (rank : Λ → ℕ) {bound : ℕ}
    (hrank : ∀ l, rank l ≤ bound) :
    ∃ t ∈ D, ∃ l l', s.Wants t l ∧ s.Holds t l' ∧ rank l ≤ rank l' := by
  by_contra hno
  push Not at hno
  -- from each thread to the owner of what it asks for the rank goes up
  have hup : ∀ n, ∃ t ∈ D, ∃ l, s.Wants t l ∧ n ≤ rank l := fun n => by
    induction n with
    | zero =>
      obtain ⟨t, ht⟩ := hne
      obtain ⟨l, hw, -⟩ := hD t ht
      exact ⟨t, ht, l, hw, Nat.zero_le _⟩
    | succ n ih =>
      obtain ⟨t, ht, l, hw, hn⟩ := ih
      obtain ⟨l₀, hw₀, u, hu, -, hu₀⟩ := hD t ht
      obtain ⟨l₁, hw₁, -⟩ := hD u hu
      obtain rfl := hw.unique hw₀
      have hlt := hno u hu l₁ l hw₁ hu₀
      exact ⟨u, hu, l₁, hw₁, by omega⟩
  obtain ⟨t, -, l, -, hn⟩ := hup (bound + 1)
  have := hrank l
  omega

/-! ## Discipline -/

variable [DecidableEq Λ]

/-- The thread holds `held`, and goes on with discipline. -/
def Keeps (s : LockState τ σ Λ) (may : List Λ → Λ → Prop) (t : τ) (held : List Λ) : Prop :=
  held.Nodup ∧ (s.code t).Respects may held ∧ ∀ l, s.Holds t l ↔ l ∈ held

/-- Every thread goes on with discipline. -/
def Disciplined (s : LockState τ σ Λ) (may : List Λ → Λ → Prop) : Prop :=
  ∀ t, ∃ held, s.Keeps may t held

variable {may : List Λ → Λ → Prop} {allowed : τ → Prog σ Λ → Prop} {t u : τ} {held : List Λ}
  {l : Λ}

theorem disciplined_idle (d : σ) : (idle d : LockState τ σ Λ).Disciplined may := fun t =>
  ⟨[], List.nodup_nil, rfl, fun l => iff_of_false (fun h => by cases h) List.not_mem_nil⟩

/-- **What a thread asks for is admitted** next to what it holds. -/
theorem Disciplined.wants (h : s.Disciplined may) (hw : s.Wants t l) :
    ∃ held, may held l ∧ ∀ l', s.Holds t l' ↔ l' ∈ held := by
  obtain ⟨held, -, hresp, hheld⟩ := h t
  obtain ⟨f, next, hcode⟩ := hw
  rw [hcode] at hresp
  exact ⟨held, hresp.2.1, hheld⟩

/-- A thread that has nothing to do holds nothing. -/
theorem Disciplined.not_holds (h : s.Disciplined may) (hdone : s.code t = .done) (l : Λ) :
    ¬ s.Holds t l := fun hl => by
  obtain ⟨held, -, hresp, hheld⟩ := h t
  rw [hdone] at hresp
  rw [hheld l, show held = [] from hresp] at hl
  exact List.not_mem_nil hl

theorem Keeps.congr {s' : LockState τ σ Λ} (h : s.Keeps may u held) (hcode : s'.code u = s.code u)
    (hholds : ∀ l, s'.Holds u l ↔ s.Holds u l) : s'.Keeps may u held :=
  ⟨h.1, hcode ▸ h.2.1, fun l => (hholds l).trans (h.2.2 l)⟩

/-- Who holds what when the owner of `l` has changed. -/
theorem holds_update {code : τ → Prog σ Λ} {x : Option τ} {d : σ} {l' : Λ} :
    (⟨code, Function.update s.owner l x, d⟩ : LockState τ σ Λ).Holds u l'
      ↔ if l' = l then x = some u else s.Holds u l' := by
  rw [Holds, Holds]
  dsimp only
  rw [Function.update_apply]
  split <;> exact Iff.rfl

variable [DecidableEq τ]

/-- **A step of a thread** does not touch another's program and mutexes. -/
theorem Disciplined.frame {s' : LockState τ σ Λ} (h : s.Disciplined may)
    (hs : s.move t = some s') (hut : u ≠ t) :
    s'.code u = s.code u ∧ ∀ l, s'.Holds u l ↔ s.Holds u l := by
  rw [LockState.move] at hs
  split at hs
  · cases hs
  · split at hs
    · next l _ _ _ hfree =>
      cases hs
      refine ⟨Function.update_of_ne hut _ _, fun l' => ?_⟩
      rw [holds_update]
      split
      · next heq =>
        rw [heq, Holds, hfree]
        exact iff_of_false (fun hno => hut (Option.some.inj hno).symm) fun hno => by cases hno
      · exact Iff.rfl
    · cases hs
  · next l next hcode =>
    cases hs
    obtain ⟨held, -, hresp, hheld⟩ := h t
    rw [hcode] at hresp
    have hown : s.owner l = some t := (hheld l).mpr hresp.1
    refine ⟨Function.update_of_ne hut _ _, fun l' => ?_⟩
    rw [holds_update]
    split
    · next heq =>
      rw [heq, Holds, hown]
      exact iff_of_false (fun hno => by cases hno) fun hno => hut (Option.some.inj hno).symm
    · exact Iff.rfl

/-- A thread that has locked `l`. -/
theorem Keeps.locked {p : Prog σ Λ} {d : σ} (h : s.Keeps may t held) (hl : l ∉ held)
    (hp : p.Respects may (l :: held)) :
    (⟨Function.update s.code t p, Function.update s.owner l (some t), d⟩ :
      LockState τ σ Λ).Keeps may t (l :: held) := by
  refine ⟨List.nodup_cons.mpr ⟨hl, h.1⟩, ?_, fun l' => ?_⟩
  · dsimp only
    rwa [Function.update_self]
  · rw [holds_update, List.mem_cons, ← h.2.2 l']
    split
    · next heq => exact iff_of_true rfl (Or.inl heq)
    · next hne => exact (or_iff_right hne).symm

/-- A thread that has unlocked `l`. -/
theorem Keeps.unlocked {p : Prog σ Λ} {d : σ} (h : s.Keeps may t held)
    (hp : p.Respects may (held.erase l)) :
    (⟨Function.update s.code t p, Function.update s.owner l none, d⟩ :
      LockState τ σ Λ).Keeps may t (held.erase l) := by
  refine ⟨h.1.erase l, ?_, fun l' => ?_⟩
  · dsimp only
    rwa [Function.update_self]
  · rw [holds_update, h.1.mem_erase_iff, ← h.2.2 l']
    split
    · next heq => exact iff_of_false (fun hno => by cases hno) fun hno => hno.1 heq
    · next hne => exact (and_iff_right hne).symm

/-- A thread that starts a program. -/
theorem Keeps.started {p : Prog σ Λ} (h : s.Keeps may t held) (hdone : s.code t = .done)
    (hp : p.Respects may []) :
    ({ s with code := Function.update s.code t p } : LockState τ σ Λ).Keeps may t [] := by
  obtain ⟨-, hresp, hheld⟩ := h
  rw [hdone] at hresp
  obtain rfl : held = [] := hresp
  refine ⟨List.nodup_nil, ?_, hheld⟩
  dsimp only
  rwa [Function.update_self]

/-- **Steps keep the discipline**, if the programs that start have it. -/
theorem Disciplined.step {s' : LockState τ σ Λ} {ev : LockEvent τ σ Λ}
    (hallowed : ∀ t p, allowed t p → p.Respects may []) (h : s.Disciplined may)
    (hs : s.Step allowed ev s') : s'.Disciplined may := by
  intro u
  obtain ⟨held, hkeeps⟩ := h u
  cases ev with
  | start t p =>
    obtain ⟨hdone, hp, rfl⟩ := hs
    by_cases hut : u = t
    · subst hut
      exact ⟨[], hkeeps.started hdone (hallowed u p hp)⟩
    · exact ⟨held, hkeeps.congr (Function.update_of_ne hut _ _) fun _ => Iff.rfl⟩
  | move t =>
    replace hs : s.move t = some s' := hs
    by_cases hut : u = t
    · subst hut
      have hresp := hkeeps.2.1
      rw [LockState.move] at hs
      split at hs
      · cases hs
      · next l f next hcode =>
        rw [hcode] at hresp
        split at hs
        · cases hs
          exact ⟨l :: held, hkeeps.locked hresp.1 (hresp.2.2 _)⟩
        · cases hs
      · next l next hcode =>
        rw [hcode] at hresp
        cases hs
        exact ⟨held.erase l, hkeeps.unlocked (hresp.2 _)⟩
    · obtain ⟨hcode, hholds⟩ := h.frame hs hut
      exact ⟨held, hkeeps.congr hcode hholds⟩

end LockState

end Treeless
