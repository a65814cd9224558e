import Mathlib.Data.Nat.Basic
import Treeless.Machinery.Guard
import Treeless.Machinery.Locks

/-!
# Core/Locking — the mutexes of the core

There is one mutex for the core, and two for each chunk: the chunk's own, and `defragMutex`.  The
operations lock them in the order

    core ──► defragMutex ──► chunk

except one: `BackwardsIterate` locks the chunk first, to see if it is present, and `defragMutex`
after that.  The programs below are the operations as far as they lock, unlock and look at whether a
chunk is present; a callback of an iteration does none of it.
-/

namespace Treeless

inductive Mutex
  | core
  | defrag (c : ℕ)
  | chunk (c : ℕ)
  deriving DecidableEq, Repr

namespace Mutex

/-- The place of a mutex in the order. -/
def rank : Mutex → ℕ
  | core => 0
  | defrag _ => 1
  | chunk _ => 2

/-- What an operation may lock next to what it holds. -/
def May : List Mutex → Mutex → Prop
  | [], _ => True
  | [core], chunk _ => True
  | [defrag c], chunk c' => c' = c
  -- against the order
  | [chunk c], defrag c' => c' = c
  | _, _ => False

end Mutex

/-- A program on the flags of presence. -/
abbrev Code := Prog (ℕ → Bool) Mutex

namespace Code

open Prog

/-- Locks a mutex and goes on, whatever the flags are. -/
def take (l : Mutex) (next : Code) : Code := lock l id fun _ => next

def release (l : Mutex) (next : Code) : Code := unlock l fun _ => next

/-! ## Primitives -/

/-- An operation with the chunk locked, present or not. -/
def withChunk (c : ℕ) : Code := take (.chunk c) (release (.chunk c) done)

def get (c : ℕ) : Code := withChunk c
def set (c : ℕ) : Code := withChunk c
def delete (c : ℕ) : Code := withChunk c
def cas (c : ℕ) : Code := withChunk c
def lengthOfChunk (c : ℕ) : Code := withChunk c

/-- Callbacks of an iteration: the chunk is unlocked during each. -/
def callbacks (c : ℕ) : ℕ → Code → Code
  | 0, next => next
  | n + 1, next => release (.chunk c) (take (.chunk c) (callbacks c n next))

/-- `Iterate`, with `n` callbacks. -/
def iterate (c n : ℕ) : Code :=
  lock (.chunk c) id fun present =>
    if present c then callbacks c n (release (.chunk c) done) else release (.chunk c) done

/-- `BackwardsIterate`, with `n` callbacks. -/
def backwardsIterate (c n : ℕ) : Code :=
  lock (.chunk c) id fun present =>
    if present c then
      take (.defrag c) (callbacks c n (release (.chunk c) (release (.defrag c) done)))
    else release (.chunk c) done

/-! ## Getters and setters -/

/-- The loop of `PresentChunksList`. -/
def listFrom : List ℕ → (ℕ → Bool) → Code
  | [], _ => release .core done
  | c :: cs, present =>
    if present c then take (.chunk c) (unlock (.chunk c) (listFrom cs)) else listFrom cs present

def presentChunksList (numChunks : ℕ) : Code := lock .core id (listFrom (List.range numChunks))

/-- The core and the chunk are locked; the deferred calls unlock the core first. -/
def setter (c : ℕ) (f : (ℕ → Bool) → ℕ → Bool) : Code :=
  take .core (lock (.chunk c) f fun _ => release .core (release (.chunk c) done))

def chunkSetPresent (c : ℕ) : Code := setter c fun present => Function.update present c true
def chunkSetNoPresent (c : ℕ) : Code := setter c fun present => Function.update present c false
def chunkSetProtected (c : ℕ) : Code := setter c id

/-- The end of a protection: the deferred calls unlock the chunk first. -/
def unprotect (c : ℕ) : Code :=
  take .core (take (.chunk c) (release (.chunk c) (release .core done)))

/-- The defragmenter. -/
def defrag (c : ℕ) : Code :=
  take (.defrag c) (take (.chunk c) (release (.chunk c) (release (.defrag c) done)))

/-- The operations of a core of `numChunks` chunks, called from outside. -/
inductive IsOp (numChunks : ℕ) : Code → Prop
  | get (c : ℕ) : IsOp numChunks (get c)
  | set (c : ℕ) : IsOp numChunks (set c)
  | delete (c : ℕ) : IsOp numChunks (delete c)
  | cas (c : ℕ) : IsOp numChunks (cas c)
  | lengthOfChunk (c : ℕ) : IsOp numChunks (lengthOfChunk c)
  | iterate (c n : ℕ) : IsOp numChunks (iterate c n)
  | backwardsIterate (c n : ℕ) : IsOp numChunks (backwardsIterate c n)
  | presentChunksList : IsOp numChunks (presentChunksList numChunks)
  | chunkSetPresent (c : ℕ) : IsOp numChunks (chunkSetPresent c)
  | chunkSetNoPresent (c : ℕ) : IsOp numChunks (chunkSetNoPresent c)
  | chunkSetProtected (c : ℕ) : IsOp numChunks (chunkSetProtected c)
  | unprotect (c : ℕ) : IsOp numChunks (unprotect c)

/-! ## The order -/

/-- The last mutex is unlocked. -/
theorem respects_last (l : Mutex) : (release l done).Respects Mutex.May [l] :=
  ⟨List.mem_cons_self, fun _ => show [l].erase l = [] from List.erase_cons_head l []⟩

theorem respects_withChunk (c : ℕ) : (withChunk c).Respects Mutex.May [] :=
  ⟨List.not_mem_nil, trivial, fun _ => respects_last _⟩

/-- The callbacks of an iteration that holds `rest` besides the chunk. -/
theorem respects_callbacks {c : ℕ} {rest : List Mutex} {next : Code}
    (hrest : Mutex.chunk c ∉ rest) (hmay : Mutex.May rest (.chunk c))
    (hnext : ∀ held, .chunk c ∈ held → held.erase (.chunk c) = rest →
      next.Respects Mutex.May held) :
    ∀ (n : ℕ) {held : List Mutex}, .chunk c ∈ held → held.erase (.chunk c) = rest →
      (callbacks c n next).Respects Mutex.May held
  | 0, held, hmem, herase => hnext held hmem herase
  | n + 1, held, hmem, herase => by
      refine ⟨hmem, fun _ => ?_⟩
      rw [herase]
      exact ⟨hrest, hmay, fun _ =>
        respects_callbacks hrest hmay hnext n List.mem_cons_self (List.erase_cons_head _ _)⟩

theorem respects_iterate (c n : ℕ) : (iterate c n).Respects Mutex.May [] := by
  refine ⟨List.not_mem_nil, trivial, fun present => ?_⟩
  dsimp only
  split
  · refine respects_callbacks List.not_mem_nil trivial (fun held hmem herase => ?_) n
      List.mem_cons_self (List.erase_cons_head _ _)
    exact ⟨hmem, fun _ => herase⟩
  · exact respects_last _

theorem respects_backwardsIterate (c n : ℕ) : (backwardsIterate c n).Respects Mutex.May [] := by
  refine ⟨List.not_mem_nil, trivial, fun present => ?_⟩
  dsimp only
  split
  · have hmay : Mutex.May [.defrag c] (.chunk c) := rfl
    refine ⟨by simp, rfl, fun _ => respects_callbacks (by simp) hmay (fun held hmem herase => ?_) n
      (by simp) (by simp)⟩
    refine ⟨hmem, fun _ => ?_⟩
    rw [herase]
    exact respects_last _
  · exact respects_last _

theorem respects_listFrom : ∀ (cs : List ℕ) (present : ℕ → Bool),
    (listFrom cs present).Respects Mutex.May [.core]
  | [], _ => respects_last _
  | c :: cs, present => by
      rw [listFrom]
      split
      · refine ⟨by simp, trivial, fun _ => ⟨List.mem_cons_self, fun present => ?_⟩⟩
        rw [List.erase_cons_head]
        exact respects_listFrom cs present
      · exact respects_listFrom cs present

theorem respects_setter (c : ℕ) (f : (ℕ → Bool) → ℕ → Bool) :
    (setter c f).Respects Mutex.May [] := by
  simp [setter, take, release, Prog.Respects, Mutex.May]

theorem respects_defrag (c : ℕ) : (defrag c).Respects Mutex.May [] := by
  simp [defrag, take, release, Prog.Respects, Mutex.May]

theorem respects_unprotect (c : ℕ) : (unprotect c).Respects Mutex.May [] := by
  simp [unprotect, take, release, Prog.Respects, Mutex.May]

/-- **Every operation keeps to the order**, but for the one exception. -/
theorem IsOp.respects {numChunks : ℕ} {p : Code} (h : IsOp numChunks p) :
    p.Respects Mutex.May [] := by
  cases h with
  | get c | set c | delete c | cas c | lengthOfChunk c => exact respects_withChunk c
  | iterate c n => exact respects_iterate c n
  | backwardsIterate c n => exact respects_backwardsIterate c n
  | presentChunksList =>
    exact ⟨List.not_mem_nil, trivial, respects_listFrom (List.range numChunks)⟩
  | chunkSetPresent c | chunkSetNoPresent c | chunkSetProtected c => exact respects_setter c _
  | unprotect c => exact respects_unprotect c

end Code

/-! ## Who waits for whom -/

namespace Mutex

variable {held : List Mutex} {l l' : Mutex}

theorem rank_le : ∀ l : Mutex, rank l ≤ 2
  | core => Nat.zero_le 2
  | defrag _ => Nat.le_succ 1
  | chunk _ => Nat.le_refl 2

/-- **The exception**: whoever asks against the order holds the chunk of the `defragMutex`. -/
theorem May.descent (h : May held l) (hl' : l' ∈ held) (hrank : rank l ≤ rank l') :
    ∃ c, l = defrag c ∧ held = [chunk c] := by
  unfold May at h
  split at h
  · exact absurd hl' List.not_mem_nil
  · rw [List.mem_singleton.mp hl'] at hrank
    exact absurd hrank (show ¬ 2 ≤ 0 by decide)
  · rw [List.mem_singleton.mp hl'] at hrank
    exact absurd hrank (show ¬ 2 ≤ 1 by decide)
  · next c c' => exact ⟨c, congrArg defrag h, rfl⟩
  · exact h.elim

/-- Whoever has a `defragMutex` asks for its chunk. -/
theorem May.of_defrag {c : ℕ} (h : May held l) (hmem : defrag c ∈ held) : l = chunk c := by
  unfold May at h
  split at h
  · exact absurd hmem List.not_mem_nil
  · cases List.mem_singleton.mp hmem
  · cases List.mem_singleton.mp hmem
    exact congrArg chunk h
  · cases List.mem_singleton.mp hmem
  · exact h.elim

end Mutex

/-- The threads of a core: the defragmenter, and those that call the operations. -/
inductive CoreThread (ι : Type)
  | defragmenter
  | caller (i : ι)
  deriving DecidableEq, Repr

/-- A core, with who owns its mutexes and where its threads are. -/
abbrev CoreLocks (ι : Type) := LockState (CoreThread ι) (ℕ → Bool) Mutex

namespace CoreLocks

variable {ι : Type}

/-- What a thread runs. -/
def Runs (numChunks : ℕ) : CoreThread ι → Code → Prop
  | .defragmenter, p => ∃ c, p = Code.defrag c
  | .caller _, p => Code.IsOp numChunks p

theorem respects_of_runs {numChunks : ℕ} (t : CoreThread ι) (p : Code) (h : Runs numChunks t p) :
    p.Respects Mutex.May [] := by
  cases t with
  | defragmenter =>
    obtain ⟨c, rfl⟩ := h
    exact Code.respects_defrag c
  | caller i => exact Code.IsOp.respects h

/-- **Two threads wait for each other**: one has the chunk and is at the lock of its `defragMutex`,
another one has that and is at the lock of the chunk. -/
def Crossed (s : CoreLocks ι) (c : ℕ) : Prop :=
  ∃ b x, s.Holds b (.chunk c) ∧ s.Wants b (.defrag c) ∧ s.Holds x (.defrag c)
    ∧ s.Wants x (.chunk c)

/-- **The only deadlock** is that of two threads at the mutexes of one chunk. -/
theorem deadlocked_iff {s : CoreLocks ι} (h : s.Disciplined Mutex.May) :
    s.Deadlocked ↔ ∃ c, s.Crossed c := by
  constructor
  · rintro ⟨D, hne, hD⟩
    obtain ⟨b, hb, l, l', hw, hl', hle⟩ :=
      LockState.Deadlocked.exists_descent hne hD Mutex.rank Mutex.rank_le
    obtain ⟨held, hmay, hheld⟩ := h.wants hw
    obtain ⟨c, rfl, rfl⟩ := hmay.descent ((hheld l').mp hl') hle
    obtain ⟨l₀, hw₀, x, hx, -, hown⟩ := hD b hb
    obtain rfl := hw.unique hw₀
    obtain ⟨l₁, hw₁, -⟩ := hD x hx
    obtain ⟨held₁, hmay₁, hheld₁⟩ := h.wants hw₁
    obtain rfl := hmay₁.of_defrag ((hheld₁ _).mp hown)
    exact ⟨c, b, x, (hheld _).mpr List.mem_cons_self, hw, hown, hw₁⟩
  · rintro ⟨c, b, x, hb, hwb, hx, hwx⟩
    have hne : b ≠ x := fun heq => by
      subst heq
      cases hwb.unique hwx
    refine ⟨{b, x}, ⟨b, Or.inl rfl⟩, fun t ht => ?_⟩
    rcases ht with rfl | rfl
    · exact ⟨_, hwb, x, Or.inr rfl, hne.symm, hx⟩
    · exact ⟨_, hwx, b, Or.inl rfl, hne, hb⟩

variable [DecidableEq ι]

/-- The steps of a core of `numChunks` chunks. -/
def Step (numChunks : ℕ) (s : CoreLocks ι) (ev : LockEvent (CoreThread ι) (ℕ → Bool) Mutex)
    (s' : CoreLocks ι) : Prop := LockState.Step (Runs numChunks) s ev s'

/-- No thread comes to the lock of a `defragMutex`, with the chunk locked, while another has it and
is at the lock of the chunk; nor to the lock of a chunk, with its `defragMutex` locked, while
another has it and is at the lock of the `defragMutex`. -/
def Clear (s : CoreLocks ι) : LockEvent (CoreThread ι) (ℕ → Bool) Mutex → Prop
  | .start _ _ => True
  | .move t => ∀ s', s.move t = some s' → ∀ c,
    (s'.Holds t (.chunk c) → s'.Wants t (.defrag c) →
      ∀ x ≠ t, s.Holds x (.defrag c) → ¬ s.Wants x (.chunk c))
    ∧ (s'.Holds t (.defrag c) → s'.Wants t (.chunk c) →
      ∀ b ≠ t, s.Holds b (.chunk c) → ¬ s.Wants b (.defrag c))

/-- What clear steps keep: the discipline, and that no two threads wait for each other. -/
def Flows (s : CoreLocks ι) : Prop := s.Disciplined Mutex.May ∧ ∀ c, ¬ s.Crossed c

/-- **Clear steps do not cross.** -/
theorem Flows.step {numChunks : ℕ} {s s' : CoreLocks ι}
    {ev : LockEvent (CoreThread ι) (ℕ → Bool) Mutex} (h : s.Flows) (hclear : s.Clear ev)
    (hs : Step numChunks s ev s') : s'.Flows := by
  obtain ⟨hdisc, hno⟩ := h
  refine ⟨hdisc.step respects_of_runs hs, ?_⟩
  rintro c ⟨b, x, hb, hwb, hx, hwx⟩
  cases ev with
  | start t p =>
    obtain ⟨hdone, -, rfl⟩ := hs
    have hother : ∀ {u l l'}, s.Holds u l →
        LockState.Wants { s with code := Function.update s.code t p } u l' → s.Wants u l' := by
      rintro u l l' hl ⟨f, next, hcode⟩
      have hut : u ≠ t := fun heq => hdisc.not_holds hdone l (heq ▸ hl)
      dsimp only at hcode
      rw [Function.update_of_ne hut] at hcode
      exact ⟨f, next, hcode⟩
    exact hno c ⟨b, x, hb, hother hb hwb, hx, hother hx hwx⟩
  | move t =>
    have hne : b ≠ x := fun heq => by
      subst heq
      cases hwb.unique hwx
    have hother : ∀ {u l l'}, u ≠ t → s'.Holds u l → s'.Wants u l' →
        s.Holds u l ∧ s.Wants u l' := by
      rintro u l l' hut hl ⟨f, next, hcode⟩
      obtain ⟨hsame, hholds⟩ := hdisc.frame hs hut
      exact ⟨(hholds l).mp hl, f, next, hsame ▸ hcode⟩
    by_cases hbt : b = t
    · subst hbt
      obtain ⟨hx₀, hwx₀⟩ := hother hne.symm hx hwx
      exact (hclear s' hs c).1 hb hwb x hne.symm hx₀ hwx₀
    · obtain ⟨hb₀, hwb₀⟩ := hother hbt hb hwb
      by_cases hxt : x = t
      · subst hxt
        exact (hclear s' hs c).2 hx hwx b hbt hb₀ hwb₀
      · obtain ⟨hx₀, hwx₀⟩ := hother hxt hx hwx
        exact hno c ⟨b, x, hb₀, hwb₀, hx₀, hwx₀⟩

/-- A step that is not clear crosses. -/
theorem Flows.crossed {numChunks : ℕ} {s s' : CoreLocks ι}
    {ev : LockEvent (CoreThread ι) (ℕ → Bool) Mutex} (h : s.Flows) (hclear : ¬ s.Clear ev)
    (hs : Step numChunks s ev s') : ∃ c, s'.Crossed c := by
  cases ev with
  | start t p => exact absurd trivial hclear
  | move t =>
    have hother : ∀ {u l l'}, u ≠ t → s.Holds u l → s.Wants u l' →
        s'.Holds u l ∧ s'.Wants u l' := by
      rintro u l l' hut hl ⟨f, next, hcode⟩
      obtain ⟨hsame, hholds⟩ := h.1.frame hs hut
      exact ⟨(hholds l).mpr hl, f, next, hsame.trans hcode⟩
    rw [Clear] at hclear
    push Not at hclear
    obtain ⟨s₁, hs₁, c, hcross⟩ := hclear
    obtain rfl : s₁ = s' := Option.some.inj (hs₁.symm.trans hs)
    by_cases hb : s₁.Holds t (.chunk c) → s₁.Wants t (.defrag c) →
        ∀ x ≠ t, s.Holds x (.defrag c) → ¬ s.Wants x (.chunk c)
    · obtain ⟨hx, hwx, b, hbt, hb, hwb⟩ := hcross hb
      obtain ⟨hb, hwb⟩ := hother hbt hb hwb
      exact ⟨c, b, t, hb, hwb, hx, hwx⟩
    · push Not at hb
      obtain ⟨hb, hwb, x, hxt, hx, hwx⟩ := hb
      obtain ⟨hx, hwx⟩ := hother hxt hx hwx
      exact ⟨c, t, x, hb, hwb, hx, hwx⟩

/-- **No lock cycle in the core.**  No set of threads is deadlocked as long as no thread comes to
the lock of one of a chunk's two mutexes, with the other one locked, while another thread, with the
first one locked, is at the lock of the second; each step that does so is a deadlock.  There is no
other: in every state of every run a deadlock is two threads at the two mutexes of one chunk. -/
theorem no_lock_cycle_iff (numChunks : ℕ) (present : ℕ → Bool) :
    ExactGuard (Step numChunks) Clear LockState.Deadlocked (LockState.idle present : CoreLocks ι)
    ∧ ∀ evs s, Run (Step numChunks) (LockState.idle present : CoreLocks ι) evs s →
      (s.Deadlocked ↔ ∃ c, s.Crossed c) := by
  have hidle : (LockState.idle present : CoreLocks ι).Disciplined Mutex.May :=
    LockState.disciplined_idle present
  refine ⟨.of_invariant (I := Flows) ⟨hidle, fun c => ?_⟩ Flows.step (fun h hdead => ?_)
    fun h hclear hs => .now ?_, fun evs s hrun => deadlocked_iff ?_⟩
  · rintro ⟨b, x, hb, -⟩
    cases hb
  · obtain ⟨c, hcross⟩ := (deadlocked_iff h.1).mp hdead
    exact h.2 c hcross
  · exact (deadlocked_iff (h.1.step respects_of_runs hs)).mpr (h.crossed hclear hs)
  · exact hrun.invariant (I := fun s => s.Disciplined Mutex.May)
      (fun h hs => h.step respects_of_runs hs) hidle

/-- **A repair that starts while the defragmenter does**: `BackwardsIterate` has the chunk, the
defragmenter has its `defragMutex`, and each waits for the other. -/
theorem repair_defrag_deadlock : ∃ s : CoreLocks Unit,
    Run (Step 1) (LockState.idle fun _ => true)
      [.start (.caller ()) (Code.backwardsIterate 0 1), .start .defragmenter (Code.defrag 0),
        .move (.caller ()), .move .defragmenter] s
    ∧ s.Deadlocked := by
  refine ⟨_, .cons ⟨rfl, .backwardsIterate 0 1, rfl⟩ (.cons ⟨rfl, ⟨0, rfl⟩, rfl⟩
    (.cons rfl (.cons rfl (.refl _)))), Set.univ, ⟨.defragmenter, trivial⟩, fun t _ => ?_⟩
  cases t with
  | defragmenter => exact ⟨.chunk 0, ⟨_, _, rfl⟩, .caller (), trivial, by decide, rfl⟩
  | caller => exact ⟨.defrag 0, ⟨_, _, rfl⟩, .defragmenter, trivial, (fun h => by cases h), rfl⟩

end CoreLocks

end Treeless
