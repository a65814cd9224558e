import Treeless.Com.Protocol
import Treeless.Machinery.Run

/-!
# Com/Writer — the write buffer

`Conn.Write` appends a message to a buffer of 1450 bytes:

* it flushes the buffer first if the message does not fit behind `writeIndex`;
* it hands a message that does not fit in the whole buffer to TCP directly;
* in no-delay mode it flushes the buffer behind the message.

A ticker flushes the buffer at any other time.  What a connection has put out (`output`) is the
bytes handed to TCP followed by those in the buffer: a flush does not change it (`flush_ends`), and
a `Write` appends the encoding of its message (`write_ends`).
-/

namespace Treeless

def writeBufferSize : ℕ := 1450

/-- The sending half of a TCP connection: the bytes handed to it, and how many bytes each further
call of `Write` accepts at most (one more than the number given; any number if none is given). -/
structure TcpOut where
  sent : Bytes
  accepts : List ℕ

/-- Hands a buffer to TCP, by as many calls of `Write` as it takes. -/
def tcpWrite : List ℕ → Bytes → Bytes → TcpOut
  | [], sent, buffer => ⟨sent ++ buffer, []⟩
  | n :: accepts, sent, buffer =>
    if buffer = [] then ⟨sent, n :: accepts⟩
    else tcpWrite accepts (sent ++ buffer.take (n + 1)) (buffer.drop (n + 1))

@[simp] theorem sent_tcpWrite : ∀ (accepts : List ℕ) (sent buffer : Bytes),
    (tcpWrite accepts sent buffer).sent = sent ++ buffer
  | [], _, _ => rfl
  | n :: accepts, sent, buffer => by
      rw [tcpWrite]
      split
      · next h => rw [h, List.append_nil]
      · rw [sent_tcpWrite, List.append_assoc, List.take_append_drop]

/-- The writing half of a connection. -/
structure Writer where
  writeBuffer : Mem
  writeIndex : ℕ
  buffering : Bool
  tcp : TcpOut

namespace Writer

/-- A new connection, in buffered mode. -/
def new (accepts : List ℕ) : Writer := ⟨fun _ => 0, 0, true, ⟨[], accepts⟩⟩

variable (c : Writer)

/-- `writeBuffer[lo:hi]`, in range. -/
def window (lo hi : ℕ) : Call Bytes :=
  if lo ≤ hi ∧ hi ≤ writeBufferSize then .ok (c.writeBuffer.read lo (hi - lo)) else .error .bounds

/-- Bytes handed to TCP. -/
def hand (bs : Bytes) : Writer := { c with tcp := tcpWrite c.tcp.accepts c.tcp.sent bs }

/-- Hands the buffer to TCP, as the ticker does. -/
def flush : Call Writer := do
  let bs ← c.window 0 c.writeIndex
  return { c.hand bs with writeIndex := 0 }

/-- The mode behind a message. -/
def modeAfter (buffering : Bool) (m : Message) : Bool :=
  if m.type = .setBuffered then true else if m.type = .setNoDelay then false else buffering

/-- The message is in the buffer: flushes it in no-delay mode. -/
def append (msgSize : ℕ) : Call Writer :=
  let c := { c with writeIndex := c.writeIndex + msgSize }
  if c.buffering then .ok c else c.flush

/-- Writes a message. -/
def write (m : Message) : Call Writer := do
  let c := { c with buffering := modeAfter c.buffering m }
  let room ← c.window c.writeIndex writeBufferSize
  let (msgSize, tooLong, writeBuffer) := m.marshal c.writeBuffer c.writeIndex room.length
  if tooLong then
    let c ← c.flush
    if msgSize > writeBufferSize then
      let bigMsg := (m.marshal (fun _ => 0) 0 msgSize).2.2
      return c.hand (bigMsg.read 0 msgSize)
    else
      let c := { c with writeBuffer := (m.marshal c.writeBuffer 0 writeBufferSize).2.2 }
      c.append msgSize
  else
    let c := { c with writeBuffer }
    c.append msgSize

/-! ## What a connection has put out -/

/-- The bytes in the buffer. -/
def pending : Bytes := c.writeBuffer.read 0 c.writeIndex

/-- The bytes handed to TCP followed by those in the buffer. -/
def output : Bytes := c.tcp.sent ++ c.pending

/-- The index is in the buffer. -/
def Ready : Prop := c.writeIndex ≤ writeBufferSize

variable {c}

theorem window_eq {lo hi : ℕ} (h : lo ≤ hi) (h' : hi ≤ writeBufferSize) :
    c.window lo hi = .ok (c.writeBuffer.read lo (hi - lo)) := if_pos ⟨h, h'⟩

theorem ready_new (accepts : List ℕ) : (new accepts).Ready := Nat.zero_le _

/-- **A flush hands the buffer to TCP.** -/
theorem Ready.flush_eq (h : c.Ready) : c.flush = .ok { c.hand c.pending with writeIndex := 0 } := by
  rw [flush, window_eq (Nat.zero_le _) h]
  rfl

theorem sent_hand (bs : Bytes) : (c.hand bs).tcp.sent = c.tcp.sent ++ bs := sent_tcpWrite ..

/-- What a call leaves that puts out `bs` and goes to the mode `buffering`; it leaves the buffer
empty if `E` says so. -/
structure Put (c : Writer) (bs : Bytes) (buffering : Bool) (E : Prop) (c' : Writer) : Prop where
  ready : c'.Ready
  output_eq : c'.output = c.output ++ bs
  mode_eq : c'.buffering = buffering
  empty_iff : c'.writeIndex = 0 ↔ E

/-- **A flush puts out nothing more.** -/
theorem Ready.flush (h : c.Ready) :
    c.flush.Ends (fun _ => False) (c.Put [] c.buffering True) := by
  rw [h.flush_eq]
  refine ⟨Nat.zero_le _, ?_, rfl, iff_of_true rfl trivial⟩
  have hpend : Writer.pending { c.hand c.pending with writeIndex := 0 } = [] := rfl
  rw [output, hpend, List.append_nil, List.append_nil, sent_hand]
  rfl

/-- The buffer with a block behind `writeIndex`. -/
def extend (c : Writer) (bs : Bytes) : Writer :=
  ⟨c.writeBuffer.write c.writeIndex bs, c.writeIndex + bs.length, c.buffering, c.tcp⟩

theorem output_extend (bs : Bytes) : (c.extend bs).output = c.output ++ bs := by
  have hkeep : (c.writeBuffer.write c.writeIndex bs).read 0 c.writeIndex = c.pending :=
    Mem.read_congr fun i _ hi => Mem.write_apply_of_outside _ (Or.inl (by omega))
  have hpend : (c.extend bs).pending = c.pending ++ bs := by
    dsimp only [pending, extend]
    rw [Mem.read_add, Nat.zero_add, Mem.read_write_same, hkeep]
    rfl
  rw [output, output, hpend, List.append_assoc]
  rfl

/-- **A message marshalled behind `writeIndex` is put out.** -/
theorem append_ends {m : Message} (hfit : c.writeIndex + m.size ≤ writeBufferSize) :
    (append { c with writeBuffer := c.writeBuffer.write c.writeIndex m.encode } m.size).Ends
      (fun _ => False) (c.Put m.encode c.buffering (c.buffering = false)) := by
  have hpos : c.writeIndex + m.size ≠ 0 := Nat.succ_ne_zero _
  have hext : append { c with writeBuffer := c.writeBuffer.write c.writeIndex m.encode } m.size
      = if c.buffering then .ok (c.extend m.encode) else (c.extend m.encode).flush := by
    rw [extend, Message.length_encode]
    rfl
  have hready : (c.extend m.encode).Ready := by
    rwa [Ready, extend, Message.length_encode]
  rw [hext]
  cases hmode : c.buffering with
  | true =>
    refine ⟨hready, output_extend _, hmode, iff_of_false ?_ Bool.true_eq_false_eq_False⟩
    rwa [extend, Message.length_encode]
  | false =>
    refine hready.flush.mono (fun _ h => h) fun c' h => ⟨h.ready, ?_, ?_, ?_⟩
    · rw [h.output_eq, output_extend, List.append_nil]
    · exact h.mode_eq.trans hmode
    · exact iff_of_true (h.empty_iff.mpr trivial) rfl

/-- **A `Write` puts out the encoding of its message**, and leaves the buffer empty exactly in
no-delay mode or behind a big message. -/
theorem Ready.write (h : c.Ready) (m : Message) :
    (c.write m).Ends (fun _ => False) (c.Put m.encode (modeAfter c.buffering m)
      (modeAfter c.buffering m = false ∨ writeBufferSize < m.size)) := by
  have hready : c.writeIndex ≤ writeBufferSize := h
  rw [Writer.write, window_eq hready le_rfl, Call.ok_bind, Mem.length_read, Message.marshal_eq]
  by_cases hlong : writeBufferSize - c.writeIndex < m.size
  · rw [if_pos hlong]
    dsimp only
    rw [if_pos rfl]
    refine Call.Ends.seq (Ready.flush (c := { c with buffering := modeAfter c.buffering m }) h)
      fun c₁ h₁ => ?_
    have hout : c₁.output = c.output := h₁.output_eq.trans (List.append_nil _)
    have hidx : c₁.writeIndex = 0 := h₁.empty_iff.mpr trivial
    split
    · next hbig =>
      have hmsg : (m.marshal (fun _ => 0) 0 m.size).2.2.read 0 m.size = m.encode := by
        rw [Message.marshal_eq, if_neg (lt_irrefl _), ← Message.length_encode]
        exact Mem.read_write_same ..
      have hnil : c₁.pending = [] := by
        rw [pending, hidx]
        rfl
      have hnil' : (c₁.hand m.encode).pending = [] := hnil
      rw [hmsg]
      refine ⟨h₁.ready, ?_, h₁.mode_eq, iff_of_true hidx (Or.inr hbig)⟩
      rw [← hout, output, output, hnil, hnil', List.append_nil, List.append_nil, sent_hand]
    · next hsmall =>
      have happ := append_ends (c := c₁) (m := m) (by omega)
      rw [Message.marshal_eq, if_neg hsmall]
      dsimp only
      rw [hidx] at happ ⊢
      refine happ.mono (fun _ h => h) fun c' h' => ⟨h'.ready, ?_, ?_, ?_⟩
      · rw [h'.output_eq, hout]
      · rw [h'.mode_eq, h₁.mode_eq]
      · rw [h'.empty_iff, h₁.mode_eq, or_iff_left hsmall]
  · rw [if_neg hlong]
    dsimp only
    rw [if_neg Bool.false_ne_true]
    have happ := append_ends (c := { c with buffering := modeAfter c.buffering m }) (m := m)
      (by dsimp only; omega)
    refine happ.mono (fun _ h => h) fun c' h' => ⟨h'.ready, h'.output_eq, h'.mode_eq, ?_⟩
    rw [h'.empty_iff, or_iff_left (by omega)]

/-! ## Runs -/

/-- What happens to the writing half of a connection. -/
inductive Event
  | write (m : Message)
  | tick

/-- The event takes the connection from `c` to `c'`. -/
def Steps (c : Writer) : Event → Writer → Prop
  | .write m, c' => c.write m = .ok c'
  | .tick, c' => c.flush = .ok c'

/-- The messages written. -/
def written (evs : List Event) : List Message := evs.filterMap fun
  | .write m => some m
  | .tick => none

/-- The connection has put out the messages `msgs`. -/
structure Wrote (msgs : List Message) (c : Writer) : Prop where
  ready : c.Ready
  output_eq : c.output = wire msgs

theorem wrote_new (accepts : List ℕ) : (new accepts).Wrote [] := ⟨ready_new accepts, rfl⟩

/-- **One event**: a `Write` puts out its message, a tick nothing. -/
theorem Wrote.step {msgs : List Message} {ev : Event} {c' : Writer} (h : c.Wrote msgs)
    (hs : c.Steps ev c') : c'.Wrote (msgs ++ written [ev]) := by
  cases ev with
  | write m =>
    have hput := (h.ready.write m).returns c' hs
    exact ⟨hput.ready, by simp [hput.output_eq, h.output_eq, written]⟩
  | tick =>
    have hput := h.ready.flush.returns c' hs
    exact ⟨hput.ready, by simp [hput.output_eq, h.output_eq, written]⟩

theorem Wrote.run {evs : List Event} {c' : Writer} (hrun : Run Steps c evs c') :
    ∀ {msgs}, c.Wrote msgs → c'.Wrote (msgs ++ written evs) := by
  induction hrun with
  | refl => exact fun h => by simpa [written] using h
  | cons hs _ ih =>
    intro msgs h
    have hall := ih (h.step hs)
    rwa [List.append_assoc, written, written, ← List.filterMap_append] at hall

/-- **A `Write` returns**, with an empty buffer in no-delay mode. -/
theorem Ready.exists_write (h : c.Ready) (m : Message) :
    ∃ c', c.Steps (.write m) c' ∧ (c'.buffering = false → c'.writeIndex = 0) := by
  have hends := h.write m
  rcases hx : c.write m with f | c' <;> rw [hx] at hends
  · exact hends.elim
  · refine ⟨c', hx, fun hmode => hends.empty_iff.mpr (Or.inl ?_)⟩
    rw [← hends.mode_eq, hmode]

theorem Ready.exists_tick (h : c.Ready) : ∃ c', c.Steps .tick c' := ⟨_, h.flush_eq⟩

/-- **The bytes handed to TCP followed by those in the buffer are the encodings of the messages, in
call order**, whatever the ticker does; the index stays in the buffer, and a `Write` that leaves the
connection in no-delay mode leaves the buffer empty. -/
theorem writes_messages (accepts : List ℕ) {evs : List Event}
    (hrun : Run Steps (new accepts) evs c) :
    c.tcp.sent ++ c.writeBuffer.read 0 c.writeIndex = wire (written evs)
      ∧ c.writeIndex ≤ writeBufferSize
      ∧ (∃ c', c.Steps .tick c')
      ∧ ∀ m, ∃ c', c.Steps (.write m) c' ∧ (c'.buffering = false → c'.writeIndex = 0) := by
  have h := Wrote.run hrun (wrote_new accepts)
  exact ⟨h.output_eq, h.ready, h.ready.exists_tick, h.ready.exists_write⟩

/-- Two requests with a tick between them, so that the second is in the buffer. -/
def twoBuffered : List Event := [.write ⟨.get, 0, [7], []⟩, .tick, .write ⟨.get, 1, [8], []⟩]

/-- A change of the mode behind a buffered request: all of it is handed to TCP. -/
theorem writes_messages_mode : ∃ c c', Run Steps (new [3]) twoBuffered c
    ∧ 0 < c.writeIndex ∧ c.buffering = true ∧ c.Steps (.write ⟨.setNoDelay, 2, [], []⟩) c'
    ∧ c'.buffering = false ∧ c'.writeIndex = 0
    ∧ c'.tcp.sent = wire [⟨.get, 0, [7], []⟩, ⟨.get, 1, [8], []⟩, ⟨.setNoDelay, 2, [], []⟩] := by
  have hobs : ((new [3]).write ⟨.get, 0, [7], []⟩ >>= fun c => c.flush >>= fun c =>
      c.write ⟨.get, 1, [8], []⟩).map (fun c => (c.writeIndex, c.buffering))
      = .ok (14, true) := by decide +kernel
  obtain ⟨c, hc, hobs⟩ := Call.map_eq_ok.mp hobs
  obtain ⟨hindex, hbuffering⟩ := Prod.mk.inj hobs
  obtain ⟨c₁, h₁, hc⟩ := Call.bind_eq_ok.mp hc
  obtain ⟨c₂, h₂, h₃⟩ := Call.bind_eq_ok.mp hc
  have hrun : Run Steps (new [3]) twoBuffered c := .cons h₁ (.cons h₂ (.cons h₃ (.refl c)))
  obtain ⟨-, hready, -, hwrite⟩ := writes_messages [3] hrun
  obtain ⟨c', hstep, hempty⟩ := hwrite ⟨.setNoDelay, 2, [], []⟩
  have hmode : c'.buffering = false := (Ready.write hready _).returns c' hstep |>.mode_eq
  have hall := (writes_messages [3] (hrun.append (.cons hstep (.refl c')))).1
  rw [hempty hmode] at hall
  exact ⟨c, c', hrun, by omega, hbuffering, hstep, hmode, hempty hmode,
    (List.append_nil _).symm.trans hall⟩

end Writer

end Treeless
