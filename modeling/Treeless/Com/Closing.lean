import Treeless.Com.Writer

/-!
# Com/Closing — what is lost when a client connection is closed

A message of a client passes two buffers:

    Conn.send --> brokerSendChannel --> send loop --> writeBuffer --> TCP
                                                        ^ tick

`Close` closes the channel.  The send loop takes what is in it, and then closes the TCP connection,
without a look at the write buffer: the messages that are there have been accepted and are lost
(`closing_keeps_iff`).
-/

namespace Treeless

def brokerChannelBufferSize : ℕ := 1024

/-- The sending side of a client connection. -/
structure Outgoing where
  /-- The messages in `brokerSendChannel`. -/
  queued : List Message
  closed : Bool
  tid : UInt32
  writer : Writer
  tcpOpen : Bool

namespace Outgoing

def new (accepts : List ℕ) : Outgoing := ⟨[], false, 0, .new accepts, true⟩

/-- What happens to a connection. -/
inductive Event
  | send (m : Message)
  | close
  | write
  | tick
  | shutdown
  deriving DecidableEq

/-- The connection after an event; `none` if it has to wait. -/
def step (s : Outgoing) : Event → Call (Option Outgoing)
  | .send m =>
    -- a send on a closed channel is a panic, one on a full channel waits
    if s.closed then .error .panic
    else if s.queued.length < brokerChannelBufferSize then
      .ok (some { s with queued := s.queued ++ [m] })
    else .ok none
  | .close => if s.closed then .error .panic else .ok (some { s with closed := true })
  | .write =>
    match s.queued with
    | [] => .ok none
    | m :: queued => do
      let writer ← s.writer.write { m with id := s.tid }
      return some { s with queued, tid := s.tid + 1, writer }
  | .tick =>
    if s.tcpOpen then do
      let writer ← s.writer.flush
      return some { s with writer }
    else .ok none
  | .shutdown =>
    if s.closed && s.queued.isEmpty && s.tcpOpen then .ok (some { s with tcpOpen := false })
    else .ok none

def Steps (s : Outgoing) (ev : Event) (s' : Outgoing) : Prop := s.step ev = .ok (some s')

/-! ## The messages and the buffer -/

/-- The messages queued by `send`. -/
def sends (evs : List Event) : List Message := evs.filterMap fun
  | .send m => some m
  | _ => none

/-- The messages with the IDs the send loop gives them. -/
def number : ℕ → List Message → List Message
  | _, [] => []
  | i, m :: msgs => { m with id := UInt32.ofNat i } :: number (i + 1) msgs

/-- The mode behind a list of messages. -/
def mode (msgs : List Message) : Bool := msgs.foldl Writer.modeAfter true

/-- The last message is too big for the buffer. -/
def endsBig (msgs : List Message) : Bool := msgs.getLast?.any fun m => writeBufferSize < m.size

/-- There is a tick behind the last message written. -/
def tickLast (evs : List Event) : Bool := evs.foldl (fun b ev =>
  match ev with
  | .tick => true
  | .write => false
  | _ => b) false

/-- The buffer is empty behind the messages `msgs` and the events `evs`. -/
def Drained (msgs : List Message) (evs : List Event) : Prop :=
  msgs = [] ∨ tickLast evs = true ∨ endsBig msgs = true ∨ mode msgs = false

theorem sends_snoc (evs : List Event) (ev : Event) :
    sends (evs ++ [ev]) = sends evs ++ sends [ev] := List.filterMap_append

theorem number_snoc (m : Message) : ∀ (i : ℕ) (msgs : List Message),
    number i (msgs ++ [m]) = number i msgs ++ [{ m with id := UInt32.ofNat (i + msgs.length) }]
  | i, [] => rfl
  | i, m' :: msgs => by
      rw [List.cons_append, number, number_snoc m (i + 1) msgs, number, List.length_cons,
        List.cons_append, Nat.add_right_comm, Nat.add_assoc]

theorem mode_snoc (msgs : List Message) (m : Message) :
    mode (msgs ++ [m]) = Writer.modeAfter (mode msgs) m := by
  rw [mode, List.foldl_append]
  rfl

theorem endsBig_snoc (msgs : List Message) (m : Message) :
    endsBig (msgs ++ [m]) = true ↔ writeBufferSize < m.size := by
  simp [endsBig]

theorem tickLast_snoc (evs : List Event) (ev : Event) : tickLast (evs ++ [ev])
    = match ev with
      | .tick => true
      | .write => false
      | _ => tickLast evs := by
  rw [tickLast, List.foldl_append]
  rfl

/-! ## Runs -/

/-- What holds of a connection behind the events `evs`: the messages `done` have been written. -/
structure Inv (s : Outgoing) (evs : List Event) (done : List Message) : Prop where
  sends_eq : sends evs = done ++ s.queued
  tid_eq : s.tid = UInt32.ofNat done.length
  wrote : s.writer.Wrote (number 0 done)
  mode_eq : s.writer.buffering = mode done
  empty_iff : s.writer.writeIndex = 0 ↔ Drained done evs

theorem inv_new (accepts : List ℕ) : (new accepts).Inv [] [] :=
  ⟨rfl, rfl, Writer.wrote_new accepts, rfl, iff_of_true rfl (Or.inl rfl)⟩

variable {s s' : Outgoing} {evs : List Event} {done : List Message}

/-- An event that does not touch the buffer. -/
theorem Inv.keep (h : s.Inv evs done) {ev : Event}
    (hsends : sends (evs ++ [ev]) = done ++ s'.queued) (htid : s'.tid = s.tid)
    (hwriter : s'.writer = s.writer) (hlast : tickLast (evs ++ [ev]) = tickLast evs) :
    s'.Inv (evs ++ [ev]) done := by
  refine ⟨hsends, htid.trans h.tid_eq, ?_, ?_, ?_⟩ <;> rw [hwriter]
  · exact h.wrote
  · exact h.mode_eq
  · rw [Drained, hlast]
    exact h.empty_iff

/-- **The send loop writes a message.** -/
theorem Inv.write (h : s.Inv evs done) {m : Message} {queued : List Message} {writer : Writer}
    (hq : s.queued = m :: queued) (hw : s.writer.write { m with id := s.tid } = .ok writer) :
    Inv { s with queued, tid := s.tid + 1, writer } (evs ++ [.write]) (done ++ [m]) := by
  have hput := (h.wrote.ready.write _).returns _ hw
  have hwrote : writer.Wrote (number 0 done ++ [{ m with id := s.tid }]) :=
    h.wrote.step (show s.writer.Steps (.write { m with id := s.tid }) writer from hw)
  refine ⟨?_, ?_, ?_, ?_, ?_⟩
  · rw [sends_snoc, h.sends_eq, hq]
    simp [sends]
  · dsimp only
    rw [h.tid_eq, List.length_append, List.length_singleton, UInt32.ofNat_add]
    rfl
  · rw [number_snoc, Nat.zero_add, ← h.tid_eq]
    exact hwrote
  · rw [mode_snoc, ← h.mode_eq]
    exact hput.mode_eq
  · rw [hput.empty_iff, Drained, tickLast_snoc, endsBig_snoc, mode_snoc, ← h.mode_eq]
    simp only [List.append_eq_nil_iff, List.cons_ne_self, and_false, Bool.false_eq_true, false_or]
    exact or_comm

/-- **A tick empties the buffer.** -/
theorem Inv.tick (h : s.Inv evs done) {writer : Writer} (hw : s.writer.flush = .ok writer) :
    Inv { s with writer } (evs ++ [.tick]) done := by
  have hput := h.wrote.ready.flush.returns _ hw
  have hwrote : writer.Wrote (number 0 done ++ []) :=
    h.wrote.step (show s.writer.Steps .tick writer from hw)
  refine ⟨?_, h.tid_eq, ?_, ?_, ?_⟩
  · rw [sends_snoc, h.sends_eq]
    exact List.append_nil _
  · exact List.append_nil (number 0 done) ▸ hwrote
  · exact hput.mode_eq.trans h.mode_eq
  · rw [Drained, tickLast_snoc]
    exact iff_of_true (hput.empty_iff.mpr trivial) (Or.inr (Or.inl rfl))

/-- **One event.** -/
theorem Inv.step (h : s.Inv evs done) {ev : Event} (hs : s.Steps ev s') :
    ∃ done', s'.Inv (evs ++ [ev]) done' := by
  cases ev with
  | send m =>
    rw [Steps, Outgoing.step] at hs
    split at hs
    · cases hs
    · split at hs
      · cases hs
        refine ⟨done, h.keep ?_ rfl rfl (tickLast_snoc evs _)⟩
        rw [sends_snoc, h.sends_eq, List.append_assoc]
        rfl
      · cases hs
  | close =>
    rw [Steps, Outgoing.step] at hs
    split at hs
    · cases hs
    · cases hs
      refine ⟨done, h.keep ?_ rfl rfl (tickLast_snoc evs _)⟩
      rw [sends_snoc, h.sends_eq]
      exact List.append_nil _
  | write =>
    rw [Steps, Outgoing.step] at hs
    split at hs
    · cases hs
    · next m queued hq =>
      obtain ⟨writer, hw, hs⟩ := Call.bind_eq_ok.mp hs
      cases hs
      exact ⟨done ++ [m], h.write hq hw⟩
  | tick =>
    rw [Steps, Outgoing.step] at hs
    split at hs
    · obtain ⟨writer, hw, hs⟩ := Call.bind_eq_ok.mp hs
      cases hs
      exact ⟨done, h.tick hw⟩
    · cases hs
  | shutdown =>
    rw [Steps, Outgoing.step] at hs
    split at hs
    · cases hs
      refine ⟨done, h.keep ?_ rfl rfl (tickLast_snoc evs _)⟩
      rw [sends_snoc, h.sends_eq]
      exact List.append_nil _
    · cases hs

theorem inv_run {accepts : List ℕ} (hrun : Run Steps (new accepts) evs s) :
    ∃ done, s.Inv evs done := by
  refine hrun.history (R := fun s evs => ∃ done, s.Inv evs done) ⟨[], inv_new accepts⟩ ?_
  rintro s evs ev s' ⟨done, h⟩ hs
  exact h.step hs

/-- **What TCP has been handed when it is closed is all that was queued, exactly if nothing was, the
last message left the connection in no-delay mode or was too big for the buffer, or a tick came
behind it.** -/
theorem closing_keeps_iff (accepts : List ℕ) (hrun : Run Steps (new accepts) evs s)
    (hs : s.Steps .shutdown s') :
    s'.writer.tcp.sent = wire (number 0 (sends evs)) ↔ Drained (sends evs) evs := by
  obtain ⟨done, h⟩ := inv_run hrun
  rw [Steps, Outgoing.step] at hs
  split at hs
  · next hdown =>
    cases hs
    have hq : s.queued = [] := by
      simp only [Bool.and_eq_true, List.isEmpty_iff] at hdown
      exact hdown.1.2
    have hsends : sends evs = done := by rw [h.sends_eq, hq, List.append_nil]
    rw [hsends, ← h.empty_iff, ← h.wrote.output_eq, Writer.output, List.self_eq_append_right,
      ← List.length_eq_zero_iff, Writer.pending, Mem.length_read]
  · cases hs

/-- The connection after an event, if it returns and does not wait. -/
def next (s : Outgoing) (ev : Event) : Option Outgoing := (s.step ev).toOption.join

theorem steps_of_next {ev : Event} (h : s.next ev = some s') : s.Steps ev s' := by
  rw [next] at h
  rcases hx : s.step ev with f | r <;> rw [hx] at h
  · cases h
  · exact hx.trans (congrArg _ h)

/-- A run up to the close of TCP, by what TCP has been handed. -/
theorem exists_closing (accepts : List ℕ) (evs : List Event) (bytes : Bytes)
    (h : ((evs.foldlM next (new accepts)).bind (next · .shutdown)).map (·.writer.tcp.sent)
      = some bytes) :
    ∃ s s', Run Steps (new accepts) evs s ∧ s.Steps .shutdown s' ∧ s'.writer.tcp.sent = bytes := by
  obtain ⟨s', hs', rfl⟩ := Option.map_eq_some_iff.mp h
  obtain ⟨s, hrun, hdown⟩ := Option.bind_eq_some_iff.mp hs'
  exact ⟨s, s', (Run.of_foldlM hrun).mono steps_of_next, steps_of_next hdown, rfl⟩

/-- An asynchronous `Set`, written to the buffer and closed on. -/
theorem closing_loses_tail : ∃ s s',
    Run Steps (new []) [.send ⟨.asyncSet, 0, [7], [8]⟩, .close, .write] s ∧ s.Steps .shutdown s'
      ∧ s'.writer.tcp.sent ≠ wire (number 0 [⟨.asyncSet, 0, [7], [8]⟩]) := by
  obtain ⟨s, s', hrun, hdown, hsent⟩ := exists_closing []
    [.send ⟨.asyncSet, 0, [7], [8]⟩, .close, .write] [] (by decide +kernel)
  exact ⟨s, s', hrun, hdown, by rw [hsent]; decide +kernel⟩

/-- A tick between the last `Write` and the close saves the message. -/
theorem closing_keeps_iff_tick : ∃ s s',
    Run Steps (new []) [.send ⟨.asyncSet, 0, [7], [8]⟩, .close, .write, .tick] s
      ∧ s.Steps .shutdown s'
      ∧ s'.writer.tcp.sent = wire (number 0 [⟨.asyncSet, 0, [7], [8]⟩]) := by
  obtain ⟨s, s', hrun, hdown, -⟩ := exists_closing []
    [.send ⟨.asyncSet, 0, [7], [8]⟩, .close, .write, .tick]
    (wire (number 0 [⟨.asyncSet, 0, [7], [8]⟩])) (by decide +kernel)
  exact ⟨s, s', hrun, hdown, (closing_keeps_iff [] hrun hdown).mpr (Or.inr (Or.inl rfl))⟩

end Outgoing

end Treeless
