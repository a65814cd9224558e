import Treeless.Com.Reader

/-!
# Com/Framing — reading a list of messages

The peer sends the encodings of a list of messages (`wire`); TCP cuts them anywhere.

* `reads_messages`: the calls of `Read` that return, return the first messages of the list, and what
  is left of the stream is the encodings of the others;
* `reads_progress_iff`: no call of `tcp.Read` has an empty destination, exactly if every message
  starts where a header fits (`HeadersFit`).  Where the messages start depends on their sizes alone.
-/

namespace Treeless

/-- Every message has a size of 32 bits. -/
def Sized (msgs : List Message) : Prop := ∀ m ∈ msgs, m.size < 2 ^ 32

instance (msgs : List Message) : Decidable (Sized msgs) :=
  inferInstanceAs (Decidable (∀ m ∈ msgs, _))

theorem frame_wire {m : Message} (h : m.size < 2 ^ 32) (rest : Bytes) :
    frame (m.encode ++ rest) = some (m.encode, rest) := by
  refine frame_eq ?_ ?_
  · rw [List.length_append, Message.length_encode]
    exact Nat.le_add_right_of_le m.minimumMessageSize_le_size
  · rw [Message.length_encode, List.take_append_of_le_length
      (by rw [Message.length_encode, Message.size]; omega)]
    have hfield : m.encode.take 4 = leBytes 4 m.size := by
      simp only [Message.encode, List.append_assoc]
      exact List.take_left' (length_leBytes 4 _)
    rw [hfield, leNat_leBytes_of_lt h]

theorem ofFrame_encode {m : Message} (h : m.size < 2 ^ 32) : Message.ofFrame m.encode = m := by
  have := unmarshal_encode h
  rw [unmarshal_eq, if_pos (wellFormed_encode h)] at this
  exact Except.ok.inj this

namespace Reader

variable {c c' : Reader} {t t' : Tcp} {m : Message} {ms msgs : List Message}

/-- A call of `Read` returns the message `m`. -/
def Reads (s : Reader × Tcp) (m : Message) (s' : Reader × Tcp) : Prop :=
  s.1.read s.2 = .ok (some (m, s'))

/-- What is left of the stream is the encodings of `msgs`. -/
structure Holds (msgs : List Message) (s : Reader × Tcp) : Prop where
  ready : s.1.Ready
  stream_eq : s.1.stream s.2 = wire msgs
  sized : Sized msgs

theorem holds_new (hsize : Sized msgs) (finds : List ℕ) :
    Holds msgs (new, ⟨wire msgs, finds⟩) := ⟨ready_new, rfl, hsize⟩

/-- The stream of a list of messages is never misframed. -/
theorem Holds.not_misframed (h : Holds msgs (c, t)) : ¬ c.Misframed t := by
  rintro ⟨src, rest, hframe, hwf⟩
  rw [h.stream_eq] at hframe
  cases msgs with
  | nil => cases hframe
  | cons m msgs =>
    have hm := h.sized m List.mem_cons_self
    rw [wire_cons, frame_wire hm] at hframe
    cases hframe
    exact hwf (wellFormed_encode hm)

/-- **One call**: the message it returns is the next of the list. -/
theorem Reads.next {s s' : Reader × Tcp} (hr : Reads s m s') (h : Holds msgs s) :
    ∃ rest, msgs = m :: rest ∧ Holds rest s'
      ∧ s'.1.readStart = advance s.1.readStart m.size
      ∧ (s.2.Trickles → s.1.pending = [] → s'.2.Trickles ∧ s'.1.pending = []) := by
  obtain ⟨⟨src, htook⟩, -⟩ := h.ready.read.returns _ hr
  have hframe := htook.frame_eq
  rw [h.stream_eq] at hframe
  cases msgs with
  | nil => cases hframe
  | cons m₀ rest =>
    have hm := h.sized m₀ List.mem_cons_self
    rw [wire_cons, frame_wire hm] at hframe
    obtain ⟨rfl, hrest⟩ := Prod.mk.inj (Option.some.inj hframe)
    obtain rfl : m = m₀ := htook.msg_eq.trans (ofFrame_encode hm)
    have hstart := htook.start_eq
    rw [Message.length_encode] at hstart
    exact ⟨rest, rfl, ⟨htook.ready, hrest.symm, fun _ h' => h.sized _ (List.mem_cons_of_mem _ h')⟩,
      hstart, fun htr hnil => htook.trickles htr (by rw [hnil]; exact Nat.zero_le _)⟩

/-- Where the message behind `ms` starts, if the first starts at `start`. -/
def position (start : ℕ) (ms : List Message) : ℕ := ms.foldl (fun p m => advance p m.size) start

/-- **Every run**: the messages it returns are the first of the list. -/
theorem Holds.run {s s' : Reader × Tcp} (hrun : Run Reads s ms s') : ∀ {msgs}, Holds msgs s →
    ∃ rest, msgs = ms ++ rest ∧ Holds rest s' ∧ s'.1.readStart = position s.1.readStart ms := by
  induction hrun with
  | refl s => exact fun h => ⟨_, rfl, h, rfl⟩
  | cons hr _ ih =>
    intro msgs h
    obtain ⟨rest, rfl, hrest, hstart, -⟩ := hr.next h
    obtain ⟨rest', rfl, hrest', hstart'⟩ := ih hrest
    refine ⟨rest', rfl, hrest', ?_⟩
    rw [hstart', hstart]
    rfl

/-! ## Progress -/

/-- **A stuck reader that is fed byte by byte never returns.** -/
theorem Ready.read_endless (h : c.Ready) (htr : t.Trickles) (hstuck : c.Stuck t)
    (hframed : ¬ c.Misframed t) : c.read t = .error .endless := by
  have hends := h.read (t := t)
  rcases hx : c.read t with f | _ | p <;> rw [hx] at hends
  · rcases hends with ⟨rfl, -⟩ | ⟨-, hmis⟩
    · rfl
    · exact absurd hmis hframed
  · exact absurd hstuck (hends htr).2
  · exact absurd hstuck hends.2

/-- **A reader that is fed byte by byte returns the next message**, if it returns. -/
theorem Holds.exists_reads (h : Holds (m :: msgs) (c, t)) (htr : t.Trickles)
    (hgo : c.read t ≠ .error .endless) : ∃ s', Reads (c, t) m s' := by
  have hends := h.ready.read (t := t)
  rcases hx : c.read t with f | _ | ⟨m', s'⟩ <;> rw [hx] at hends
  · rcases hends with ⟨rfl, -⟩ | ⟨-, hmis⟩
    · exact absurd hx hgo
    · exact absurd hmis h.not_misframed
  · have hnone := (hends htr).1
    rw [h.stream_eq, wire_cons, frame_wire (h.sized m List.mem_cons_self)] at hnone
    cases hnone
  · obtain ⟨rest, heq, -⟩ := Reads.next (show Reads (c, t) m' s' from hx) h
    obtain ⟨rfl, -⟩ := List.cons.inj heq
    exact ⟨s', hx⟩

/-- **A reader that is fed byte by byte and always returns gets to every message.** -/
theorem Holds.exists_run : ∀ (ms rest : List Message) {s : Reader × Tcp},
    Holds (ms ++ rest) s → s.2.Trickles → s.1.pending = [] →
    (∀ pre s', Run Reads s pre s' → s'.1.read s'.2 ≠ .error .endless) →
    ∃ s', Run Reads s ms s' ∧ Holds rest s' ∧ s'.2.Trickles ∧ s'.1.pending = []
      ∧ s'.1.readStart = position s.1.readStart ms
  | [], _, s, h, htr, hnil, _ => ⟨s, .refl s, h, htr, hnil, rfl⟩
  | m :: ms, rest, s, h, htr, hnil, hgo => by
      obtain ⟨s₁, hr⟩ := h.exists_reads htr (hgo [] s (.refl s))
      obtain ⟨rest₁, heq, h₁, hstart, hnext⟩ := hr.next h
      obtain ⟨-, rfl⟩ := List.cons.inj heq
      obtain ⟨htr₁, hnil₁⟩ := hnext htr hnil
      obtain ⟨s', hrun, h', htr', hnil', hstart'⟩ := exists_run ms rest h₁ htr₁ hnil₁
        fun pre s' hpre => hgo (m :: pre) s' (.cons hr hpre)
      refine ⟨s', .cons hr hrun, h', htr', hnil', ?_⟩
      rw [hstart', hstart]
      rfl

/-- Every message starts where the buffer has room for a header; behind the last one there is room
for a byte. -/
def HeadersFit (msgs : List Message) : Prop :=
  ∀ pre post, msgs = pre ++ post → position 0 pre + minimumMessageSize ≤ readBufferSize
    ∨ (post = [] ∧ position 0 pre < readBufferSize)

/-- The reader is stuck exactly where a header does not fit. -/
theorem Holds.stuck_iff (h : Holds msgs (c, t)) : c.Stuck t ↔
    ¬ (c.readStart + minimumMessageSize ≤ readBufferSize
      ∨ (msgs = [] ∧ c.readStart < readBufferSize)) := by
  rw [Stuck, h.stream_eq]
  cases msgs with
  | nil =>
    have h13 : minimumMessageSize = 13 := rfl
    simp only [wire_nil, List.length_nil, true_and]
    omega
  | cons m rest =>
    have hmin := m.minimumMessageSize_le_size
    simp only [wire_cons, List.length_append, Message.length_encode, List.cons_ne_nil, false_and,
      or_false]
    omega

instance (msgs : List Message) : Decidable (HeadersFit msgs) :=
  decidable_of_iff (∀ n ≤ msgs.length,
      position 0 (msgs.take n) + minimumMessageSize ≤ readBufferSize
        ∨ (msgs.drop n = [] ∧ position 0 (msgs.take n) < readBufferSize))
    ⟨fun h pre post heq => by
      subst heq
      have := h pre.length (by rw [List.length_append]; exact Nat.le_add_right _ _)
      rwa [List.take_left, List.drop_left] at this,
    fun h n _ => h _ _ (List.take_append_drop n msgs).symm⟩

/-- **Where every header fits, no call of `tcp.Read` has an empty destination.** -/
theorem HeadersFit.progress (hfit : HeadersFit msgs) (hsize : Sized msgs) {finds : List ℕ}
    (hrun : Run Reads (new, ⟨wire msgs, finds⟩) ms (c, t)) : c.read t ≠ .error .endless := by
  intro hend
  obtain ⟨rest, heq, h, hstart⟩ := Holds.run hrun (holds_new hsize finds)
  rcases h.ready.read.of_error hend with ⟨-, hstuck⟩ | ⟨hf, -⟩
  · refine h.stuck_iff.mp hstuck ?_
    rw [hstart]
    exact hfit ms rest heq
  · cases hf

/-- The connection on which TCP delivers the encodings of `msgs` byte by byte. -/
def trickle (msgs : List Message) : Tcp := ⟨wire msgs, List.replicate (wire msgs).length 0⟩

theorem trickles_trickle (msgs : List Message) : (trickle msgs).Trickles :=
  ⟨fun _ hk => List.eq_of_mem_replicate hk, (List.length_replicate ..).ge⟩

/-- **Where a header does not fit, the reader that is fed byte by byte gets stuck.** -/
theorem HeadersFit.of_progress (hsize : Sized msgs)
    (hgo : ∀ ms s, Run Reads (new, trickle msgs) ms s → s.1.read s.2 ≠ .error .endless) :
    HeadersFit msgs := by
  rintro pre post rfl
  obtain ⟨s, hrun, h, htr, -, hstart⟩ := Holds.exists_run pre post (holds_new hsize _)
    (trickles_trickle _) rfl hgo
  by_contra hno
  refine hgo pre s hrun (h.ready.read_endless htr (h.stuck_iff.mpr ?_) h.not_misframed)
  rwa [hstart]

/-! ## Runs of the reader -/

/-- **However the encodings of a list of messages are cut, the calls of `Read` that return, return
the first messages of the list**; the bytes in the buffer followed by those not received are the
encodings of the others. -/
theorem reads_messages (hsize : ∀ m ∈ msgs, m.size < 2 ^ 32) (finds : List ℕ)
    (hrun : Run Reads (new, ⟨wire msgs, finds⟩) ms (c, t)) :
    ms = msgs.take ms.length
      ∧ c.pending ++ t.bytes = wire (msgs.drop ms.length) := by
  obtain ⟨rest, rfl, hrest, -⟩ := Holds.run hrun (holds_new hsize finds)
  rw [List.take_left, List.drop_left]
  exact ⟨rfl, hrest.stream_eq⟩

/-- Two requests, read back from a stream that arrives byte by byte. -/
theorem reads_messages_two : ∃ s, Run Reads
    (new, trickle [⟨.get, 1, [7], []⟩, ⟨.set, 2, [7], [8, 9]⟩]) [⟨.get, 1, [7], []⟩] s
      ∧ s.1.pending ++ s.2.bytes = Message.encode ⟨.set, 2, [7], [8, 9]⟩ := by
  have hsize : Sized [⟨.get, 1, [7], []⟩, ⟨.set, 2, [7], [8, 9]⟩] := by decide +kernel
  have hfit : HeadersFit [⟨.get, 1, [7], []⟩, ⟨.set, 2, [7], [8, 9]⟩] := by decide +kernel
  obtain ⟨s, hrun, -⟩ := Holds.exists_run [⟨.get, 1, [7], []⟩] [⟨.set, 2, [7], [8, 9]⟩]
    (holds_new hsize _) (trickles_trickle _) rfl fun _ _ hrun => hfit.progress hsize hrun
  exact ⟨s, hrun, (reads_messages hsize _ hrun).2.trans (List.append_nil _)⟩

/-- **No call of `tcp.Read` has an empty destination, exactly if every header fits.** -/
theorem reads_progress_iff (hsize : ∀ m ∈ msgs, m.size < 2 ^ 32) :
    (∀ finds ms c t, Run Reads (new, ⟨wire msgs, finds⟩) ms (c, t) →
      c.read t ≠ .error .endless) ↔ HeadersFit msgs :=
  ⟨fun h => .of_progress hsize fun ms s hrun => h _ ms s.1 s.2 hrun,
    fun h _ _ _ _ hrun => h.progress hsize hrun⟩

/-- A message of 2048 bytes fills the buffer and leaves no room behind it. -/
theorem reads_stuck : ¬ ∀ finds ms c t, Run Reads
    (new, ⟨wire [⟨.set, 1, [], List.replicate 2035 0⟩, ⟨.get, 2, [7], []⟩], finds⟩)
      ms (c, t) → c.read t ≠ .error .endless := by
  intro hgo
  have hfit : HeadersFit [⟨.set, 1, [], List.replicate 2035 0⟩, ⟨.get, 2, [7], []⟩] :=
    .of_progress (by decide +kernel) fun ms s hrun => hgo _ ms s.1 s.2 hrun
  exact absurd hfit (by decide +kernel)

/-- The reader goes on behind a message of 2034 bytes. -/
theorem reads_progress_iff_room :
    HeadersFit [⟨.set, 1, [], List.replicate 2021 0⟩, ⟨.get, 2, [7], []⟩]
      ∧ ∀ finds ms c t, Run Reads
        (new, ⟨wire [⟨.set, 1, [], List.replicate 2021 0⟩, ⟨.get, 2, [7], []⟩], finds⟩)
          ms (c, t) → c.read t ≠ .error .endless := by
  have hfit : HeadersFit [⟨.set, 1, [], List.replicate 2021 0⟩, ⟨.get, 2, [7], []⟩] := by
    decide +kernel
  exact ⟨hfit, (reads_progress_iff (by decide +kernel)).mpr hfit⟩

end Reader

end Treeless
