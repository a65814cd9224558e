import Mathlib.Logic.Function.Basic
import Treeless.Com.Writer
import Treeless.Machinery.Guard

/-!
# Com/Flusher — `Write` and the flusher, side by side

`writeMutex` protects the write buffer from the goroutines that call `Write` and from the flusher,
which a ticker wakes.  A `Write` of `OpSetBuffered` or `OpSetNoDelay` also tells the flusher to
start or stop its ticker, by the channel `ch` of capacity one, with the mutex locked:

    Write     locking ──► sending ──► writing ──► idle
                │            ▲ blocked while `ch` is full
                └────────────┴──► writing
    flusher   idle ──tick──► locking ──► flushing ──► idle
              idle ──recv──► idle

Only the flusher empties `ch`, and not while it waits for the mutex.
-/

namespace Treeless

/-- Who locks `writeMutex`. -/
inductive Goroutine (ι : Type)
  | flusher
  | write (i : ι)
  deriving DecidableEq, Repr

/-- Where a goroutine that calls `Write` is. -/
inductive WriteAt
  | idle
  /-- At `writeMutex.Lock`. -/
  | locking (m : Message)
  /-- At the send on `ch`, `writeMutex` is locked. -/
  | sending (op : Bool) (m : Message)
  /-- Behind it, `writeMutex` is locked. -/
  | writing (m : Message)
  deriving DecidableEq, Repr

/-- Where the flusher is. -/
inductive FlusherAt
  | idle
  /-- At `writeMutex.Lock`, after a tick. -/
  | locking
  | flushing
  deriving DecidableEq, Repr

/-- A connection with the goroutines that use it. -/
structure BuffConn (ι : Type) where
  writer : Writer
  writeMutex : Option (Goroutine ι)
  ch : Option Bool
  ticker : Bool
  flusher : FlusherAt
  writes : ι → WriteAt

namespace BuffConn

/-- A new connection: `New` has sent 1 on `ch`, and the flusher has not received it. -/
def new (ι : Type) (accepts : List ℕ) : BuffConn ι :=
  ⟨.new accepts, none, some true, false, .idle, fun _ => .idle⟩

/-- What a message sends on `ch`: 1 or 0. -/
def modeOp (m : Message) : Option Bool :=
  if m.type = .setBuffered then some true else if m.type = .setNoDelay then some false else none

/-- Where `Write` goes when it has the mutex. -/
def entered (m : Message) : WriteAt :=
  match modeOp m with
  | some op => .sending op m
  | none => .writing m

inductive Event (ι : Type)
  /-- `Write` is called. -/
  | call (i : ι) (m : Message)
  | lock (i : ι)
  | send (i : ι)
  /-- The rest of `Write`, until it has unlocked; TCP may fail. -/
  | finish (i : ι) (ok : Bool)
  /-- The flusher receives from `ch`. -/
  | recv
  | tick
  | lockFlush
  | flush

variable {ι : Type} [DecidableEq ι] (s : BuffConn ι)

/-- What `Write` makes of the buffer.  If TCP fails the connection is closed, and what is left in
the buffer is of no account. -/
def written (m : Message) (ok : Bool) : Call Writer :=
  if ok then s.writer.write m
  else .ok { s.writer with buffering := Writer.modeAfter s.writer.buffering m }

/-- The connection after an event; `none` if it cannot happen. -/
def next : Event ι → Option (BuffConn ι)
  | .call i m =>
    match s.writes i with
    | .idle => some { s with writes := Function.update s.writes i (.locking m) }
    | _ => none
  | .lock i =>
    match s.writes i, s.writeMutex with
    | .locking m, none => some { s with
      writeMutex := some (.write i)
      writes := Function.update s.writes i (entered m) }
    | _, _ => none
  | .send i =>
    match s.writes i, s.ch with
    | .sending op m, none => some { s with
      ch := some op
      writes := Function.update s.writes i (.writing m) }
    | _, _ => none
  | .finish i ok =>
    match s.writes i with
    | .writing m => do
      let writer ← (s.written m ok).toOption
      return { s with
        writer
        writeMutex := none
        writes := Function.update s.writes i .idle }
    | _ => none
  | .recv =>
    match s.flusher, s.ch with
    -- 1 starts a ticker that is not there, 0 stops one that is
    | .idle, some op => some { s with ch := none, ticker := op }
    | _, _ => none
  | .tick =>
    match s.flusher, s.ticker with
    | .idle, true => some { s with flusher := .locking }
    | _, _ => none
  | .lockFlush =>
    match s.flusher, s.writeMutex with
    | .locking, none => some { s with writeMutex := some .flusher, flusher := .flushing }
    | _, _ => none
  | .flush =>
    match s.flusher with
    | .flushing => do
      let writer ← s.writer.flush.toOption
      return { s with writer, writeMutex := none, flusher := .idle }
    | _ => none

/-- The steps of a connection. -/
def Step (s : BuffConn ι) (ev : Event ι) (s' : BuffConn ι) : Prop := s.next ev = some s'

/-- **A `Write` that has the mutex waits for the flusher, and the flusher for the mutex.** -/
def Deadlocked (s : BuffConn ι) : Prop :=
  ∃ i op m, s.writes i = .sending op m ∧ s.writeMutex = some (.write i) ∧ s.ch ≠ none
    ∧ s.flusher = .locking

/-- A `Write` that changes the mode gets the mutex only while `ch` is empty or the flusher, having
no ticker, is there to empty it. -/
def Clear (s : BuffConn ι) : Event ι → Prop
  | .lock i => ∀ m, s.writes i = .locking m → modeOp m ≠ none →
    s.ch = none ∨ s.flusher = .idle ∧ s.ticker = false
  | _ => True

/-! ## The invariant -/

/-- Behind `writeMutex.Lock`. -/
def Inside : WriteAt → Prop
  | .sending _ _ | .writing _ => True
  | _ => False

/-- What the clear steps keep: the mutex is locked by whoever is behind its `Lock`, and a `Write` at
its send finds `ch` empty, or the flusher with nothing else to do than to empty it. -/
structure Flows (s : BuffConn ι) : Prop where
  inside : ∀ i, Inside (s.writes i) → s.writeMutex = some (.write i)
  flushing : s.flusher = .flushing → s.writeMutex = some .flusher
  sending : ∀ i op m, s.writes i = .sending op m →
    s.ch = none ∨ s.flusher = .idle ∧ s.ticker = false

omit [DecidableEq ι] in
theorem flows_new (accepts : List ℕ) : (new ι accepts).Flows :=
  ⟨fun _ h => h.elim, fun h => (by cases h), fun _ _ _ h => (by cases h)⟩

omit [DecidableEq ι] in
/-- With the mutex free nobody is inside. -/
theorem Flows.outside {s : BuffConn ι} (h : s.Flows) (hfree : s.writeMutex = none) (i : ι) :
    ¬ Inside (s.writes i) := fun hin => by
  rw [h.inside i hin] at hfree
  cases hfree

omit [DecidableEq ι] in
/-- One goroutine is inside. -/
theorem Flows.unique {s : BuffConn ι} (h : s.Flows) {i j : ι} (hi : Inside (s.writes i))
    (hj : Inside (s.writes j)) : i = j :=
  Goroutine.write.inj (Option.some.inj ((h.inside i hi).symm.trans (h.inside j hj)))

omit [DecidableEq ι] in
theorem inside_of_sending {w : WriteAt} {op : Bool} {m : Message} (h : w = .sending op m) :
    Inside w := h ▸ trivial

/-- One goroutine moves, and no other is inside. -/
theorem Flows.of_alone {s s' : BuffConn ι} {i : ι} {w : WriteAt}
    (hw : s'.writes = Function.update s.writes i w) (halone : ∀ j, Inside (s.writes j) → j = i)
    (hin : Inside w → s'.writeMutex = some (.write i))
    (hflush : s'.flusher = .flushing → s'.writeMutex = some .flusher)
    (hsend : ∀ op m, w = .sending op m → s'.ch = none ∨ s'.flusher = .idle ∧ s'.ticker = false) :
    s'.Flows := by
  have hself : ∀ j, Inside (s'.writes j) → j = i := fun j hj => by
    by_contra hne
    rw [hw, Function.update_of_ne hne] at hj
    exact hne (halone j hj)
  have hget : s'.writes i = w := by rw [hw, Function.update_self]
  refine ⟨fun j hj => ?_, hflush, fun j op m hj => ?_⟩
  · obtain rfl := hself j hj
    exact hin (hget ▸ hj)
  · obtain rfl := hself j (inside_of_sending hj)
    exact hsend op m (hget ▸ hj)

/-- A goroutine moves in front of the `Lock`. -/
theorem Flows.of_outside {s : BuffConn ι} (h : s.Flows) (i : ι) {w : WriteAt} (hw : ¬ Inside w) :
    ({ s with writes := Function.update s.writes i w } : BuffConn ι).Flows := by
  have hsame : ∀ j, Inside (Function.update s.writes i w j) →
      Function.update s.writes i w j = s.writes j := fun j hj => by
    refine Function.update_of_ne (fun hji => ?_) _ _
    rw [hji, Function.update_self] at hj
    exact hw hj
  refine ⟨fun j hj => h.inside j (hsame j hj ▸ hj), h.flushing, fun j op m hj => ?_⟩
  exact h.sending j op m ((hsame j (inside_of_sending hj)).symm.trans hj)

/-- **Clear steps keep the invariant.** -/
theorem Flows.step {s s' : BuffConn ι} {ev : Event ι} (h : s.Flows) (hclear : s.Clear ev)
    (hs : s.Step ev s') : s'.Flows := by
  cases ev with
  | call i m =>
    rw [Step, next] at hs
    split at hs
    · cases hs
      exact h.of_outside i id
    · cases hs
  | lock i =>
    rw [Step, next] at hs
    split at hs
    · next m hi hfree =>
      cases hs
      refine .of_alone rfl (fun j hj => (h.outside hfree j hj).elim) (fun _ => rfl)
        (fun hf => ?_) fun op m' hop => hclear m hi fun hnone => ?_
      · rw [h.flushing hf] at hfree
        cases hfree
      · rw [entered, hnone] at hop
        cases hop
    · cases hs
  | send i =>
    rw [Step, next] at hs
    split at hs
    · next op m hi hempty =>
      cases hs
      have hin := inside_of_sending hi
      exact .of_alone rfl (fun j hj => h.unique hj hin) (fun _ => h.inside i hin) h.flushing
        fun _ _ hop => (by cases hop)
    · cases hs
  | finish i ok =>
    rw [Step, next] at hs
    split at hs
    · next m hi =>
      obtain ⟨writer, -, hs⟩ := Option.bind_eq_some_iff.mp hs
      cases hs
      have hin : Inside (s.writes i) := hi ▸ trivial
      refine .of_alone rfl (fun j hj => h.unique hj hin) (fun hidle => hidle.elim) (fun hf => ?_)
        fun _ _ hop => (by cases hop)
      cases (h.flushing hf).symm.trans (h.inside i hin)
    · cases hs
  | recv =>
    rw [Step, next] at hs
    split at hs
    · cases hs
      exact ⟨h.inside, h.flushing, fun _ _ _ _ => Or.inl rfl⟩
    · cases hs
  | tick =>
    rw [Step, next] at hs
    split at hs
    · next hidle hticker =>
      cases hs
      refine ⟨h.inside, fun hf => (by cases hf), fun i op m hi => Or.inl ?_⟩
      refine (h.sending i op m hi).resolve_right fun hoff => ?_
      rw [hticker] at hoff
      cases hoff.2
    · cases hs
  | lockFlush =>
    rw [Step, next] at hs
    split at hs
    · next hlock hfree =>
      cases hs
      exact ⟨fun i hi => (h.outside hfree i hi).elim, fun _ => rfl,
        fun i _ _ hi => (h.outside hfree i (inside_of_sending hi)).elim⟩
    · cases hs
  | flush =>
    rw [Step, next] at hs
    split at hs
    · next hf =>
      obtain ⟨writer, -, hs⟩ := Option.bind_eq_some_iff.mp hs
      cases hs
      have hout : ∀ i, ¬ Inside (s.writes i) := fun i hi => by
        cases (h.flushing hf).symm.trans (h.inside i hi)
      exact ⟨fun i hi => (hout i hi).elim, fun hidle => (by cases hidle),
        fun i _ _ hi => (hout i (inside_of_sending hi)).elim⟩
    · cases hs

omit [DecidableEq ι] in
/-- In the invariant nobody waits in vain. -/
theorem Flows.not_deadlocked {s : BuffConn ι} (h : s.Flows) : ¬ s.Deadlocked := by
  rintro ⟨i, op, m, hi, -, hfull, hlock⟩
  rcases h.sending i op m hi with hempty | ⟨hidle, -⟩
  · exact hfull hempty
  · rw [hlock] at hidle
    cases hidle

/-- A `Write` at its send with `ch` full, and a flusher that waits for the mutex or may do so at its
next tick. -/
theorem leadsTo_deadlock {s : BuffConn ι} {i : ι} {op : Bool} {m : Message}
    (hi : s.writes i = .sending op m) (hmutex : s.writeMutex = some (.write i))
    (hfull : s.ch ≠ none) (hflusher : s.flusher = .locking ∨ s.flusher = .idle ∧ s.ticker = true) :
    LeadsTo Step Clear Deadlocked s := by
  rcases hflusher with hlock | ⟨hidle, hticker⟩
  · exact .now ⟨i, op, m, hi, hmutex, hfull, hlock⟩
  · have htick : s.Step .tick { s with flusher := .locking } := by
      rw [Step, next, hidle, hticker]
    exact .cons (a := .tick) trivial htick (.now ⟨i, op, m, hi, hmutex, hfull, rfl⟩)

/-- **A step that is not clear** leaves a `Write` at its send that waits for the flusher. -/
theorem Flows.leadsTo {s s' : BuffConn ι} {ev : Event ι} (h : s.Flows)
    (hclear : ¬ s.Clear ev) (hs : s.Step ev s') : LeadsTo Step Clear Deadlocked s' := by
  cases ev with
  | lock i =>
    rw [Clear] at hclear
    push Not at hclear
    obtain ⟨m, hi, hmode, hfull, hticker⟩ := hclear
    obtain ⟨op, hop⟩ := Option.ne_none_iff_exists'.mp hmode
    rw [Step, next] at hs
    split at hs
    · next m' hi' hfree =>
      cases hs
      cases hi.symm.trans hi'
      have hat : Function.update s.writes i (entered m) i = .sending op m := by
        rw [Function.update_self, entered, hop]
      refine leadsTo_deadlock hat rfl hfull ?_
      · cases hf : s.flusher with
        | idle => exact Or.inr ⟨rfl, Bool.eq_true_of_not_eq_false (hticker hf)⟩
        | locking => exact Or.inl rfl
        | flushing =>
          rw [h.flushing hf] at hfree
          cases hfree
    · cases hs
  | _ => exact absurd trivial hclear

/-- **No write deadlock.**  A deadlock is not met as long as every `Write` that changes the mode
gets the mutex while `ch` is empty or the flusher has no ticker; and each one that gets it otherwise
can end in a deadlock. -/
theorem no_write_deadlock_iff (accepts : List ℕ) :
    ExactGuard Step Clear Deadlocked (new ι accepts) :=
  .of_invariant (flows_new accepts) Flows.step Flows.not_deadlocked Flows.leadsTo

/-- The last step of a `Write`. -/
theorem step_finish {s : BuffConn ι} {i : ι} {m : Message} {w : Writer}
    (hi : s.writes i = .writing m) (hw : s.writer.write m = .ok w) :
    s.Step (.finish i true)
      { s with writer := w, writeMutex := none, writes := Function.update s.writes i .idle } := by
  rw [Step, next, hi]
  dsimp only
  rw [written, if_pos rfl, hw]
  rfl

/-- **A tick, and the mode changed twice**: the flusher has taken the tick when a first `Write`
fills `ch`, and a second one locks the mutex before it. -/
theorem mode_changes_deadlock : ∃ s : BuffConn Bool, Run Step (new Bool [])
      [.recv, .tick, .call false ⟨.setNoDelay, 0, [], []⟩, .lock false, .send false,
        .finish false true, .call true ⟨.setBuffered, 0, [], []⟩, .lock true] s
    ∧ s.Deadlocked := by
  obtain ⟨w, hw, -⟩ := (Writer.ready_new []).exists_write ⟨.setNoDelay, 0, [], []⟩
  let m : Message := ⟨.setNoDelay, 0, [], []⟩
  have hfull : Run Step (new Bool []) [.recv, .tick, .call false m, .lock false, .send false]
    ⟨.new [], some (.write false), some false, true, .locking, Function.update (Function.update
      (Function.update (fun _ => .idle) false (.locking m)) false (entered m)) false
      (.writing m)⟩ := Run.of_foldlM rfl
  refine ⟨_, hfull.append (.cons (step_finish rfl hw) (.cons rfl (.cons rfl (.refl _)))), true,
    true, ⟨.setBuffered, 0, [], []⟩, rfl, rfl, Option.some_ne_none _, rfl⟩

end BuffConn

end Treeless
