import Treeless.Com.Queue
import Treeless.Machinery.Guard

/-!
# Com/Ticker — who looks at the deadlines

Two goroutines of the broker share the queue of the deadlines.  The send loop pushes the deadline of
every request; the ticker goroutine looks for those that are over, at every tick while it is
activated.  It deactivates itself when it finds the queue empty, and waits to be activated again:

    send loop   waiting ──► locking ──push──► writing ──► activating ──► waiting
    ticker      inactive ──► receiving ──activated──► ticking ──► locking ──clean──► ticking
                    ▲                                                         │
                    └────────────────────── the queue is empty ◄──────────────┘

The send loop activates it after every request, by a send that is given up if the ticker goroutine
is not at its receive.  On its way there, at the start or after a deactivation, it is not.
-/

namespace Treeless

/-- Where the send loop is. -/
inductive SenderAt
  /-- At the receive of the next message. -/
  | waiting
  /-- At `mutex.Lock`, with a message of this timeout. -/
  | locking (timeout : ℤ)
  /-- At `bconn.Write`. -/
  | writing (timeout : ℤ)
  /-- At the send on `tickerActivation`. -/
  | activating
  | ended
  deriving DecidableEq, Repr

/-- Where the ticker goroutine is. -/
inductive TickerAt
  /-- Not activated, on its way to the receive from `tickerActivation`. -/
  | inactive
  /-- At the receive from `tickerActivation`. -/
  | receiving
  /-- Activated, at the receive of the next tick. -/
  | ticking
  /-- At `mutex.Lock`, with the time of the tick. -/
  | locking (now : ℤ)
  deriving DecidableEq, Repr

/-- The two goroutines and their queue. -/
structure Timeouts where
  pq : Queue
  tid : UInt32
  sender : SenderAt
  ticker : TickerAt

namespace Timeouts

/-- The broker at its start. -/
def new : Timeouts := ⟨.create, 0, .waiting, .inactive⟩

inductive Event
  /-- The send loop receives a message. -/
  | take (timeout : ℤ)
  /-- It pushes the deadline `t`, in the node `tm` of the pool, if there is a timeout. -/
  | push (t : ℤ) (tm : ℕ)
  | write
  /-- It tries to activate the ticker. -/
  | activate
  /-- The connection is closed. -/
  | close
  /-- The ticker goroutine comes to its receive. -/
  | arrive
  | tick (now : ℤ)
  /-- It looks at the queue. -/
  | clean

variable (s : Timeouts)

/-- The queue after the send loop had the mutex.  A message without a timeout has no deadline; one
of a negative timeout has a channel all the same, which is a panic. -/
def pushed (timeout t : ℤ) (tm : ℕ) : Option Queue :=
  if timeout > 0 then
    if s.pq.Available tm then ((s.pq.get tm ⟨t, s.tid⟩).push tm).toOption else none
  else if timeout = 0 then some s.pq
  else none

/-- The broker after an event; `none` if it cannot happen. -/
def next : Event → Option Timeouts
  | .take timeout =>
    match s.sender with
    | .waiting => some { s with sender := .locking timeout }
    | _ => none
  | .push t tm =>
    match s.sender with
    | .locking timeout => (s.pushed timeout t tm).map fun pq => { s with
      pq
      sender := .writing timeout }
    | _ => none
  | .write =>
    match s.sender with
    | .writing timeout => some { s with
      tid := s.tid + 1
      sender := if timeout > 0 then .activating else .waiting }
    | _ => none
  | .activate =>
    match s.sender with
    | .activating => some { s with
      sender := .waiting
      ticker := if s.ticker = .receiving then .ticking else s.ticker }
    | _ => none
  | .close =>
    match s.sender with
    | .waiting => s.pq.forall.toOption.map fun p => { s with pq := p.2, sender := .ended }
    | _ => none
  | .arrive =>
    match s.ticker with
    | .inactive => some { s with ticker := .receiving }
    | _ => none
  | .tick now =>
    match s.ticker with
    | .ticking => some { s with ticker := .locking now }
    | _ => none
  | .clean =>
    match s.ticker with
    | .locking now => (s.pq.clean now).toOption.map fun p => { s with
      pq := p.2
      ticker := if p.2.l = 0 then .inactive else .ticking }
    | _ => none

/-- The steps of the two goroutines. -/
def Step (s : Timeouts) (ev : Event) (s' : Timeouts) : Prop := s.next ev = some s'

/-- The ticker is not activated. -/
def Resting (s : Timeouts) : Prop := s.ticker = .inactive ∨ s.ticker = .receiving

/-- **A request is left without a timeout**: nobody looks at the queue, and nobody is about to. -/
def Stranded (s : Timeouts) : Prop := s.pq.l ≠ 0 ∧ s.sender = .waiting ∧ s.Resting

/-- An activation finds the queue empty, or the ticker goroutine not on its way to the receive. -/
def Timely (s : Timeouts) : Event → Prop
  | .activate => s.pq.l = 0 ∨ s.ticker ≠ .inactive
  | _ => True

/-- The send loop has a deadline pushed and will activate the ticker. -/
def Activates : SenderAt → Prop
  | .writing timeout => timeout > 0
  | .activating => True
  | _ => False

/-- What timely steps keep: with entries in the queue the ticker is activated, or about to be. -/
def Watched (s : Timeouts) : Prop := s.pq.l ≠ 0 → s.Resting → Activates s.sender

theorem watched_new : new.Watched := fun h => (h rfl).elim

end Timeouts

namespace Queue

theorem l_forallLoop : ∀ {n : ℕ} {q q' : Queue} {calls : List Deadline}, q.l = n →
    forallLoop n q = .ok (calls, q') → q'.l = 0
  | 0, _, _, _, hl, h => by
      cases h
      exact hl
  | n + 1, q, q', calls, hl, h => by
      obtain ⟨f, -, h⟩ := Call.bind_eq_ok.mp h
      obtain ⟨⟨calls', q''⟩, hloop, h⟩ := Call.bind_eq_ok.mp h
      cases h
      refine l_forallLoop ?_ hloop
      dsimp only [put]
      rw [hl, Nat.add_sub_cancel]

/-- `forall` leaves the queue empty. -/
theorem l_forall {q q' : Queue} {calls : List Deadline} (h : q.forall = .ok (calls, q')) :
    q'.l = 0 := by
  obtain ⟨⟨calls', q''⟩, hloop, h⟩ := Call.bind_eq_ok.mp h
  cases h
  have hl : q''.l = 0 := l_forallLoop rfl hloop
  exact hl

end Queue

namespace Timeouts

/-- Where the send loop is when nobody else looks at the queue. -/
theorem Watched.activates {s : Timeouts} (h : s.Watched) (hl : s.pq.l ≠ 0) (hrest : s.Resting)
    {w : SenderAt} (hsend : s.sender = w) : Activates w := hsend ▸ h hl hrest

/-- **Timely steps keep the queue watched.** -/
theorem Watched.step {s s' : Timeouts} {ev : Event} (h : s.Watched) (htime : s.Timely ev)
    (hs : s.Step ev s') : s'.Watched := by
  intro hl hrest
  cases ev with
  | take timeout =>
    rw [Step, next] at hs
    split at hs
    · next hsend =>
      cases hs
      exact (h.activates hl hrest hsend).elim
    · cases hs
  | push t tm =>
    rw [Step, next] at hs
    split at hs
    · next timeout hsend =>
      obtain ⟨pq, hpq, rfl⟩ := Option.map_eq_some_iff.mp hs
      rw [pushed] at hpq
      split at hpq
      · next hpos => exact hpos
      · split at hpq
        · cases hpq
          exact (h.activates hl hrest hsend).elim
        · cases hpq
    · cases hs
  | write =>
    rw [Step, next] at hs
    split at hs
    · next timeout hsend =>
      cases hs
      have hpos : timeout > 0 := h.activates hl hrest hsend
      dsimp only
      rw [if_pos hpos]
      trivial
    · cases hs
  | activate =>
    rw [Step, next] at hs
    split at hs
    · cases hs
      rcases hrest with hrest | hrest <;> dsimp only at hrest <;> split at hrest
      · cases hrest
      · exact (htime.resolve_left hl hrest).elim
      · cases hrest
      · next hne => exact (hne hrest).elim
    · cases hs
  | close =>
    rw [Step, next] at hs
    split at hs
    · obtain ⟨⟨calls, pq⟩, hpq, rfl⟩ := Option.map_eq_some_iff.mp hs
      exact (hl (Queue.l_forall (Call.eq_ok_of_toOption hpq))).elim
    · cases hs
  | arrive =>
    rw [Step, next] at hs
    split at hs
    · next hin =>
      cases hs
      exact h hl (Or.inl hin)
    · cases hs
  | tick now =>
    rw [Step, next] at hs
    split at hs
    · cases hs
      rcases hrest with hrest | hrest <;> cases hrest
    · cases hs
  | clean =>
    rw [Step, next] at hs
    split at hs
    · obtain ⟨⟨calls, pq⟩, -, rfl⟩ := Option.map_eq_some_iff.mp hs
      dsimp only at hl
      rw [Resting, if_neg hl] at hrest
      rcases hrest with hrest | hrest <;> cases hrest
    · cases hs

theorem Watched.not_stranded {s : Timeouts} (h : s.Watched) : ¬ s.Stranded := by
  rintro ⟨hl, hsend, hrest⟩
  exact h.activates hl hrest hsend

/-- An activation that is not timely strands what is in the queue. -/
theorem stranded_of_not_timely {s s' : Timeouts} {ev : Event} (htime : ¬ s.Timely ev)
    (hs : s.Step ev s') : s'.Stranded := by
  cases ev with
  | activate =>
    rw [Timely, not_or, not_not] at htime
    rw [Step, next] at hs
    split at hs
    · cases hs
      refine ⟨htime.1, rfl, Or.inl ?_⟩
      dsimp only
      rw [htime.2]
      rfl
    · cases hs
  | _ => exact absurd trivial htime

/-- **Pending requests keep the ticker running**: no request is left without a timeout as long as
every activation finds the queue empty, or the ticker goroutine not on its way to its receive; and
each other activation leaves one. -/
theorem never_stranded_iff {evs : List Event} {s : Timeouts}
    (hrun : Run (Guarded Step Timely) new evs s) : ¬ s.Stranded
      ∧ ∀ ev s', s.Step ev s' → (s.Timely ev ↔ ¬ LeadsTo Step Timely Stranded s') := by
  have hexact : ExactGuard Step Timely Stranded new :=
    .of_invariant watched_new Watched.step Watched.not_stranded
      fun _ htime hs => .now (stranded_of_not_timely htime hs)
  exact hexact evs s hrun

/-- A request sent when the ticker goroutine has come to its receive. -/
theorem never_stranded_iff_arrived : ∃ s,
    Run (Guarded Step Timely) new [.arrive, .take 500, .push 500 0, .write, .activate] s
    ∧ ¬ s.Stranded
    ∧ ∀ ev s', s.Step ev s' → (s.Timely ev ↔ ¬ LeadsTo Step Timely Stranded s') := by
  obtain ⟨s, hrun⟩ : ∃ s, Run (Guarded Step Timely) new
      [.arrive, .take 500, .push 500 0, .write, .activate] s :=
    ⟨_, .cons ⟨trivial, rfl⟩ (.cons ⟨trivial, rfl⟩ (.cons ⟨trivial, rfl⟩ (.cons ⟨trivial, rfl⟩
      (.cons ⟨Or.inr (fun h => by cases h), rfl⟩ (.refl _)))))⟩
  exact ⟨s, hrun, never_stranded_iff hrun⟩

/-- **A request sent at the start**, before the ticker goroutine has come to its receive. -/
theorem first_request_stranded : ∃ s, Run Step new [.take 500, .push 500 0, .write, .activate] s
    ∧ s.Stranded :=
  ⟨_, Run.of_foldlM rfl, by decide, rfl, Or.inl rfl⟩

/-- The event is neither the next message nor the end of the connection. -/
def Quiet : Event → Prop
  | .take _ | .close => False
  | _ => True

theorem Stranded.step {s s' : Timeouts} {ev : Event} (h : s.Stranded) (hquiet : Quiet ev)
    (hs : s.Step ev s') : s'.Stranded ∧ s'.pq = s.pq := by
  obtain ⟨hl, hsend, hrest⟩ := h
  cases ev with
  | take timeout => exact hquiet.elim
  | close => exact hquiet.elim
  | arrive =>
    rw [Step, next] at hs
    split at hs
    · cases hs
      exact ⟨⟨hl, hsend, Or.inr rfl⟩, rfl⟩
    · cases hs
  | push | write | activate =>
    rw [Step, next, hsend] at hs
    cases hs
  | tick | clean =>
    rw [Step, next] at hs
    rcases hrest with hrest | hrest <;> rw [hrest] at hs <;> cases hs

/-- **What is stranded stays so** until the next message, or the end of the connection. -/
theorem Stranded.stays {s s' : Timeouts} {evs : List Event} (hrun : Run Step s evs s')
    (hquiet : ∀ ev ∈ evs, Quiet ev) (h : s.Stranded) : s'.Stranded ∧ s'.pq = s.pq := by
  induction hrun with
  | refl => exact ⟨h, rfl⟩
  | cons hs _ ih =>
    obtain ⟨h', hpq⟩ := h.step (hquiet _ List.mem_cons_self) hs
    obtain ⟨h'', hpq'⟩ := ih (fun ev hev => hquiet ev (List.mem_cons_of_mem _ hev)) h'
    exact ⟨h'', hpq'.trans hpq⟩

end Timeouts

end Treeless
