import Treeless.Com.Framing
import Treeless.Com.Writer

/-!
# Com/Channel — one direction of a connection

    Write ──▸ write buffer ──flush──▸ TCP ──▸ read buffer ──▸ Read

What was written and not read yet stands in three places, one behind the other (`Carries`):

    wire rest = reader.pending ++ transit ++ writer.pending

So the messages read are the first of those written, whatever the sizes of the messages, the cuts
TCP makes and the ticks in between (`Carries.step`); and behind a flush all of them can be read, if
every header fits into the read buffer.
-/

namespace Treeless

/-- The first frame of a stream does not depend on what comes behind it. -/
theorem frame_append {bytes src rest : Bytes} (h : frame bytes = some (src, rest)) (tail : Bytes) :
    frame (bytes ++ tail) = some (src, rest ++ tail) := by
  rw [frame] at h
  split at h
  · cases h
  · next hlong =>
    obtain ⟨rfl, rfl⟩ := Prod.mk.inj (Option.some.inj h)
    have h13 : minimumMessageSize = 13 := rfl
    have htake : (bytes ++ tail).take 4 = bytes.take 4 :=
      List.take_append_of_le_length (by omega)
    rw [frame, htake, if_neg (by rw [List.length_append]; omega),
      List.take_append_of_le_length (by omega), List.drop_append_of_le_length (by omega)]

namespace Writer

variable {c : Writer}

/-! ## What is handed to TCP stays -/

theorem sent_flush : c.flush.Returns fun c' => c.tcp.sent <+: c'.tcp.sent := by
  rw [flush]
  exact .bind fun bs => .ok ⟨bs, (sent_hand bs).symm⟩

theorem sent_append (n : ℕ) : (c.append n).Returns fun c' => c.tcp.sent <+: c'.tcp.sent := by
  rw [append]
  dsimp only
  split
  · exact .ok (List.prefix_refl _)
  · exact sent_flush

theorem sent_write (m : Message) : (c.write m).Returns fun c' => c.tcp.sent <+: c'.tcp.sent := by
  rw [write]
  refine .bind fun room => ?_
  dsimp only
  split
  · refine sent_flush.seq fun c₁ h₁ => ?_
    split
    · exact .ok (h₁.trans ⟨_, (sent_hand _).symm⟩)
    · exact (sent_append _).mono fun _ h => h₁.trans h
  · exact sent_append _

/-- **A `Write` or a tick** moves bytes from the buffer to TCP, and puts out the message. -/
theorem Steps.handed {ev : Event} {c' : Writer} (h : c.Ready) (hs : c.Steps ev c') :
    c'.Ready ∧ ∃ bs, c'.tcp.sent = c.tcp.sent ++ bs
      ∧ bs ++ c'.pending = c.pending ++ wire (written [ev]) := by
  have hput : c'.Ready ∧ c'.output = c.output ++ wire (written [ev]) := by
    cases ev with
    | write m =>
      have hput := (h.write m).returns c' hs
      exact ⟨hput.ready, by simp [hput.output_eq, written]⟩
    | tick =>
      have hput := h.flush.returns c' hs
      exact ⟨hput.ready, by simp [hput.output_eq, written]⟩
  have hsent : c.tcp.sent <+: c'.tcp.sent := by
    cases ev with
    | write m => exact sent_write m c' hs
    | tick => exact sent_flush c' hs
  obtain ⟨bs, hbs⟩ := hsent
  refine ⟨hput.1, bs, hbs.symm, ?_⟩
  have hout := hput.2
  rw [output, output, ← hbs, List.append_assoc, List.append_assoc] at hout
  exact List.append_cancel_left hout

end Writer

/-- One direction of a connection. -/
structure Channel where
  writer : Writer
  /-- The bytes handed to TCP and not received. -/
  transit : Bytes
  reader : Reader

namespace Channel

def new (accepts : List ℕ) : Channel := ⟨.new accepts, [], .new⟩

inductive Event
  | put (ev : Writer.Event)
  /-- A `Read` that returns `m`, with what its calls of `tcp.Read` find. -/
  | read (finds : List ℕ) (m : Message)

variable (ch : Channel)

/-- The channel after a `Write` or a tick. -/
def hand (w : Writer) : Channel :=
  { ch with writer := w, transit := ch.transit ++ w.tcp.sent.drop ch.writer.tcp.sent.length }

/-- The event takes the channel from `ch` to `ch'`. -/
def Steps (ch : Channel) : Event → Channel → Prop
  | .put ev, ch' => ∃ w, ch.writer.Steps ev w ∧ ch' = ch.hand w
  | .read finds m, ch' => ∃ r t, ch.reader.read ⟨ch.transit, finds⟩ = .ok (some (m, r, t))
      ∧ ch' = { ch with reader := r, transit := t.bytes }

/-- The messages written. -/
def written (evs : List Event) : List Message := Writer.written (evs.filterMap fun
  | .put ev => some ev
  | .read _ _ => none)

/-- The messages read. -/
def received (evs : List Event) : List Message := evs.filterMap fun
  | .put _ => none
  | .read _ m => some m

/-! ## What is on the way -/

/-- The messages `got` have been read, and `rest` are on the way. -/
structure Carries (got rest : List Message) (ch : Channel) : Prop where
  ready : ch.writer.Ready
  readable : ch.reader.Ready
  bytes_eq : ch.reader.pending ++ ch.transit ++ ch.writer.pending = wire rest
  start_eq : ch.reader.readStart = Reader.position 0 got

theorem carries_new (accepts : List ℕ) : (new accepts).Carries [] [] :=
  ⟨Writer.ready_new accepts, Reader.ready_new, rfl, rfl⟩

variable {ch} {ch' : Channel} {got rest : List Message}

/-- **A `Write` or a tick.** -/
theorem Carries.put {ev : Writer.Event} (h : ch.Carries got rest) (hs : ch.Steps (.put ev) ch') :
    ch'.Carries got (rest ++ Writer.written [ev]) := by
  obtain ⟨w, hs, rfl⟩ := hs
  obtain ⟨hready, bs, hsent, hbs⟩ := hs.handed h.ready
  refine ⟨hready, h.readable, ?_, h.start_eq⟩
  have hdrop : w.tcp.sent.drop ch.writer.tcp.sent.length = bs := by
    rw [hsent, List.drop_left]
  rw [hand, hdrop, wire_append, ← h.bytes_eq]
  simp only [List.append_assoc, hbs]

/-- **A `Read`** returns the first message on the way. -/
theorem Carries.read {finds : List ℕ} {m : Message} (h : ch.Carries got rest) (hsize : Sized rest)
    (hs : ch.Steps (.read finds m) ch') :
    ∃ rest', rest = m :: rest' ∧ ch'.Carries (got ++ [m]) rest' := by
  obtain ⟨r, t, hread, rfl⟩ := hs
  obtain ⟨⟨src, htook⟩, -⟩ := h.readable.read.returns _ hread
  have hframe := frame_append htook.frame_eq ch.writer.pending
  rw [Reader.stream, h.bytes_eq] at hframe
  cases rest with
  | nil => cases hframe
  | cons m₀ rest =>
    have hm := hsize m₀ List.mem_cons_self
    rw [wire_cons, frame_wire hm] at hframe
    obtain ⟨rfl, hrest⟩ := Prod.mk.inj (Option.some.inj hframe)
    obtain rfl : m = m₀ := htook.msg_eq.trans (ofFrame_encode hm)
    refine ⟨rest, rfl, h.ready, htook.ready, hrest.symm, ?_⟩
    rw [htook.start_eq, h.start_eq, Message.length_encode, Reader.position, Reader.position,
      List.foldl_append]
    rfl

theorem written_cons (ev : Event) (evs : List Event) :
    written (ev :: evs) = written [ev] ++ written evs := by
  cases ev with
  | put ev => cases ev <;> rfl
  | read finds m => rfl

/-- **Every run**: the messages read are the first of those written, and the others are on the
way. -/
theorem Carries.run {evs : List Event} (hrun : Run Steps ch evs ch') : ∀ {got rest},
    ch.Carries got rest → Sized (rest ++ written evs) →
    ∃ rest', rest ++ written evs = received evs ++ rest'
      ∧ ch'.Carries (got ++ received evs) rest' := by
  induction hrun with
  | refl ch =>
    intro got rest h _
    exact ⟨rest, List.append_nil _, (List.append_nil got).symm ▸ h⟩
  | @cons ch ch₁ ch' ev evs hs _ ih =>
    intro got rest h hsize
    rw [written_cons, ← List.append_assoc] at hsize ⊢
    cases ev with
    | put ev =>
      have hev : written [.put ev] = Writer.written [ev] := rfl
      rw [hev] at hsize ⊢
      exact ih (h.put hs) hsize
    | read finds m =>
      have hev : written [.read finds m] = [] := rfl
      rw [hev, List.append_nil] at hsize ⊢
      obtain ⟨rest₁, rfl, h₁⟩ := h.read (fun m hm => hsize m (List.mem_append_left _ hm)) hs
      obtain ⟨rest', heq, h'⟩ := ih h₁ fun m' hm' => hsize m' (List.mem_cons_of_mem _ hm')
      refine ⟨rest', congrArg (m :: ·) heq, ?_⟩
      rwa [List.append_assoc] at h'

/-! ## Progress -/

/-- A channel with nothing in the write buffer can be read, if the next header fits. -/
theorem Carries.exists_read {m : Message} (h : ch.Carries got (m :: rest))
    (hsize : Sized (m :: rest)) (hflushed : ch.writer.pending = [])
    (hfit : Reader.position 0 got + minimumMessageSize ≤ readBufferSize) :
    ∃ finds ch', ch.Steps (.read finds m) ch' ∧ ch'.writer = ch.writer := by
  have hbytes := h.bytes_eq
  rw [hflushed, List.append_nil] at hbytes
  let t : Tcp := ⟨ch.transit, List.replicate ch.transit.length 0⟩
  have hholds : Reader.Holds (m :: rest) (ch.reader, t) := ⟨h.readable, hbytes, hsize⟩
  have htr : t.Trickles := ⟨fun _ hk => List.eq_of_mem_replicate hk, (List.length_replicate ..).ge⟩
  have hgo : ch.reader.read t ≠ .error .endless := fun hend => by
    rcases h.readable.read.of_error hend with ⟨-, hstuck⟩ | ⟨hf, -⟩
    · exact hholds.stuck_iff.mp hstuck (Or.inl (h.start_eq ▸ hfit))
    · cases hf
  obtain ⟨⟨r, t'⟩, hread⟩ := hholds.exists_reads htr hgo
  exact ⟨_, _, ⟨r, t', hread, rfl⟩, rfl⟩

/-- A channel can be flushed. -/
theorem Carries.exists_flush (h : ch.Carries got rest) : ∃ ch', ch.Steps (.put .tick) ch'
    ∧ ch'.Carries got rest ∧ ch'.writer.pending = [] := by
  obtain ⟨w, htick⟩ := h.ready.exists_tick
  have hput := h.put (show ch.Steps (.put .tick) _ from ⟨w, htick, rfl⟩)
  refine ⟨_, ⟨w, htick, rfl⟩, List.append_nil rest ▸ hput, ?_⟩
  have hempty := (h.ready.flush.returns w htick).empty_iff.mpr trivial
  change w.pending = []
  rw [Writer.pending, hempty]
  rfl

/-- The first message of a channel can be written, flushed and read. -/
theorem exists_pass (accepts : List ℕ) {m : Message} (hsize : Sized [m]) :
    ∃ finds ch₁ ch₂ ch₃, (new accepts).Steps (.put (.write m)) ch₁ ∧ ch₁.Steps (.put .tick) ch₂
      ∧ ch₂.Steps (.read finds m) ch₃ := by
  obtain ⟨w, hwrite, -⟩ := (Writer.ready_new accepts).exists_write m
  have hput := (carries_new accepts).put (show Steps _ (.put (.write m)) _ from ⟨w, hwrite, rfl⟩)
  obtain ⟨ch₂, htick, hcarries, hflushed⟩ := hput.exists_flush
  obtain ⟨finds, ch₃, hread, -⟩ := hcarries.exists_read hsize hflushed (by decide)
  exact ⟨finds, _, ch₂, ch₃, ⟨w, hwrite, rfl⟩, htick, hread⟩

/-- **Everything on the way can be read**, if nothing is in the write buffer. -/
theorem Carries.drain : ∀ {rest got : List Message} {ch : Channel}, ch.Carries got rest →
    Sized rest → ch.writer.pending = [] → Reader.HeadersFit (got ++ rest) →
    ∃ evs ch', Run Steps ch evs ch' ∧ written evs = [] ∧ received evs = rest
  | [], _, ch, _, _, _, _ => ⟨[], ch, .refl ch, rfl, rfl⟩
  | m :: rest, got, ch, h, hsize, hflushed, hfit => by
      have hhead := (hfit got (m :: rest) rfl).resolve_right fun hend => by cases hend.1
      obtain ⟨finds, ch₁, hs, hw⟩ := h.exists_read hsize hflushed hhead
      obtain ⟨rest₁, heq, h₁⟩ := h.read hsize hs
      obtain ⟨-, rfl⟩ := List.cons.inj heq
      obtain ⟨evs, ch', hrun, hwritten, hreceived⟩ := h₁.drain
        (fun m' hm' => hsize m' (List.mem_cons_of_mem _ hm')) (hw ▸ hflushed)
        (by rwa [List.append_assoc])
      exact ⟨_, ch', .cons hs hrun, hwritten, congrArg (m :: ·) hreceived⟩

/-- **A direction of a connection is a queue**: at any time the messages read are the first of those
written, each of them once and as it was; and after a flush the others can be read, if every header
fits. -/
theorem channel_fifo {accepts : List ℕ} {evs : List Event}
    (hrun : Run Steps (new accepts) evs ch) (hsize : Sized (written evs)) :
    received evs <+: written evs
    ∧ (Reader.HeadersFit (written evs) → ∃ evs' ch', Run Steps ch (.put .tick :: evs') ch'
      ∧ written evs' = [] ∧ received evs ++ received evs' = written evs) := by
  obtain ⟨rest, hrest, h⟩ := Carries.run hrun (carries_new accepts) hsize
  rw [List.nil_append] at hrest h
  refine ⟨⟨rest, hrest.symm⟩, fun hfit => ?_⟩
  obtain ⟨ch₁, htick, h₁, hflushed⟩ := h.exists_flush
  rw [hrest] at hfit hsize
  obtain ⟨evs', ch', hrun', hwritten, hreceived⟩ := h₁.drain
    (fun m hm => hsize m (List.mem_append_right _ hm)) hflushed hfit
  exact ⟨evs', ch', .cons htick hrun', hwritten, by rw [hreceived, hrest]⟩

/-- Two requests that are written, and read after a flush, the first one first. -/
theorem channel_fifo_requests : ∃ ch evs' ch', Run Steps (new [3])
      [.put (.write ⟨.get, 0, [7], []⟩), .put (.write ⟨.set, 1, [8], [9]⟩)] ch
    ∧ Run Steps ch (.put .tick :: evs') ch'
    ∧ received evs' = [⟨.get, 0, [7], []⟩, ⟨.set, 1, [8], [9]⟩] := by
  obtain ⟨w₁, hwrite₁, -⟩ := (Writer.ready_new [3]).exists_write ⟨.get, 0, [7], []⟩
  have hwrote₁ := (Writer.wrote_new [3]).step hwrite₁
  obtain ⟨w₂, hwrite₂, -⟩ := hwrote₁.ready.exists_write ⟨.set, 1, [8], [9]⟩
  have hrun : Run Steps (new [3])
      [.put (.write ⟨.get, 0, [7], []⟩), .put (.write ⟨.set, 1, [8], [9]⟩)] _ :=
    .cons ⟨w₁, hwrite₁, rfl⟩ (.cons ⟨w₂, hwrite₂, rfl⟩ (.refl _))
  have hsize : Sized [⟨.get, 0, [7], []⟩, ⟨.set, 1, [8], [9]⟩] := by decide +kernel
  have hfit : Reader.HeadersFit [⟨.get, 0, [7], []⟩, ⟨.set, 1, [8], [9]⟩] := by decide +kernel
  obtain ⟨evs', ch', hrun', -, hreceived⟩ := (channel_fifo hrun hsize).2 hfit
  exact ⟨_, evs', ch', hrun, hrun', hreceived⟩

end Channel

end Treeless
