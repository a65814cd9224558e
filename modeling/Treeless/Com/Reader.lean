import Treeless.Com.Protocol
import Treeless.Machinery.Run

/-!
# Com/Reader — cutting the byte stream back into messages

`Conn.Read` collects bytes in a fixed buffer and returns the first frame of it:

    0 ........ readStart ........ readEnd ........ 2048
               |-- `pending` ---||-- next `tcp.Read` --|

A message that does not fit behind `readStart` is collected in a buffer of its own; a message that
starts behind byte 1400 is first moved to the front.  However TCP cuts the stream, one call takes
one frame off `pending` followed by what has not been received (`read_ends`), and where the next
frame starts depends on the sizes alone (`advance`).

If `readEnd` reaches the end of the buffer with less than a header behind `readStart`, the
destination of `tcp.Read` is empty: it returns no bytes and no error, forever.
-/

namespace Treeless

def readBufferSize : ℕ := 2048

/-- The receiving half of a TCP connection: the bytes of the peer that have not been received, and
how many of them each further call of `Read` finds (one more than the number given). -/
structure Tcp where
  bytes : Bytes
  finds : List ℕ

/-- `Read` of a destination of `len` bytes; `none` if no more bytes come.  With an empty destination
it returns at once without an error, and the loops that call it never end. -/
def Tcp.read (t : Tcp) (len : ℕ) : Call (Option (Bytes × Tcp)) :=
  if len = 0 then .error .endless
  else match t.finds with
    | [] => .ok none
    | k :: finds =>
      if t.bytes = [] then .ok none
      else .ok (some (t.bytes.take (min (k + 1) len), ⟨t.bytes.drop (min (k + 1) len), finds⟩))

/-- The reading half of a connection. -/
structure Reader where
  readBuffer : Mem
  readStart : ℕ
  readEnd : ℕ

namespace Reader

def new : Reader := ⟨fun _ => 0, 0, 0⟩

variable (c : Reader) (t : Tcp)

/-- `readBuffer[lo:hi]`, in range. -/
def window (lo hi : ℕ) : Call Bytes :=
  if lo ≤ hi ∧ hi ≤ readBufferSize then .ok (c.readBuffer.read lo (hi - lo)) else .error .bounds

/-- Bytes received behind `readEnd`. -/
def receive (bs : Bytes) : Reader :=
  { c with readBuffer := c.readBuffer.write c.readEnd bs, readEnd := c.readEnd + bs.length }

/-- The loop that reads until there are `need` bytes behind `readStart`.  Each turn takes one of the
finds, so that there are at most as many turns. -/
def fill (need : ℕ) : ℕ → Reader → Tcp → Call (Option (Reader × Tcp))
  | 0, _, _ => .error .endless
  | fuel + 1, c, t =>
    if c.readEnd - c.readStart < need then do
      let dest ← c.window c.readEnd readBufferSize
      let some (bs, t) ← t.read dest.length | return none
      fill need fuel (c.receive bs) t
    else .ok (some (c, t))

/-- The loop that completes a big message, of which `big` has been read. -/
def fillBig (messageSize : ℕ) : ℕ → Bytes → Tcp → Call (Option (Bytes × Tcp))
  | 0, _, _ => .error .endless
  | fuel + 1, big, t =>
    if big.length < messageSize then do
      let some (bs, t) ← t.read (messageSize - big.length) | return none
      fillBig messageSize fuel (big ++ bs) t
    else .ok (some (big, t))

/-- Moves the bytes of the buffer to its front, if they start far behind. -/
def compact : Call Reader := do
  if c.readStart > 1400 then
    let bs ← c.window c.readStart c.readEnd
    return ⟨c.readBuffer.write 0 bs, 0, c.readEnd - c.readStart⟩
  else return c

/-- Special treatment for big messages: the message in a buffer of its own. -/
def readBig (messageSize : ℕ) : Call (Option (Message × Reader × Tcp)) := do
  let head ← c.window c.readStart c.readEnd
  let some (big, t) ← fillBig messageSize (t.finds.length + 1) head t | return none
  let msg ← unmarshal big
  return some (msg, { c with readStart := 0, readEnd := 0 }, t)

/-- The message in the read buffer. -/
def readBuffered (messageSize : ℕ) : Call (Option (Message × Reader × Tcp)) := do
  let some (c, t) ← fill messageSize (t.finds.length + 1) c t | return none
  let c ← c.compact
  let c := { c with readStart := c.readStart + messageSize }
  let msg ← unmarshal (← c.window (c.readStart - messageSize) c.readStart)
  return some (msg, c, t)

/-- Reads a message; `none` is an error of the connection, which is then closed. -/
def read : Call (Option (Message × Reader × Tcp)) := do
  let some (c, t) ← fill minimumMessageSize (t.finds.length + 1) c t | return none
  let header ← c.window c.readStart readBufferSize
  let messageSize := leNat (← slice header 0 4)
  if messageSize > readBufferSize - c.readStart then c.readBig t messageSize
  else c.readBuffered t messageSize

/-! ## The bytes in the buffer -/

/-- The bytes received and not yet returned. -/
def pending : Bytes := c.readBuffer.read c.readStart (c.readEnd - c.readStart)

/-- The bytes still to be returned: those in the buffer and those not received. -/
def stream : Bytes := c.pending ++ t.bytes

/-- The bounds of the buffer are in order. -/
structure Ready : Prop where
  start_le : c.readStart ≤ c.readEnd
  end_le : c.readEnd ≤ readBufferSize

@[simp] theorem length_pending : c.pending.length = c.readEnd - c.readStart := Mem.length_read ..

variable {c t}

theorem ready_new : new.Ready := ⟨le_rfl, Nat.zero_le _⟩

theorem window_eq {lo hi : ℕ} (h : lo ≤ hi) (h' : hi ≤ readBufferSize) :
    c.window lo hi = .ok (c.readBuffer.read lo (hi - lo)) := if_pos ⟨h, h'⟩

theorem Ready.receive (h : c.Ready) {bs : Bytes} (hbs : bs.length ≤ readBufferSize - c.readEnd) :
    (c.receive bs).Ready ∧ (c.receive bs).pending = c.pending ++ bs := by
  have h1 := h.start_le
  have h2 := h.end_le
  refine ⟨⟨Nat.le_add_right_of_le h1, by dsimp only [Reader.receive]; omega⟩, ?_⟩
  have hlen : c.readEnd + bs.length - c.readStart = c.readEnd - c.readStart + bs.length := by omega
  have hend : c.readStart + (c.readEnd - c.readStart) = c.readEnd := by omega
  have hkeep : (c.readBuffer.write c.readEnd bs).read c.readStart (c.readEnd - c.readStart)
      = c.pending :=
    Mem.read_congr fun i _ hi => Mem.write_apply_of_outside _ (Or.inl (by omega))
  dsimp only [Reader.receive, pending]
  rw [hlen, Mem.read_add, hend, Mem.read_write_same, hkeep]
  rfl

/-- Where a buffer that starts at `start` starts after `compact`. -/
def compactStart (start : ℕ) : ℕ := if start > 1400 then 0 else start

/-- **Compaction keeps the bytes.** -/
theorem Ready.compact (h : c.Ready) : ∃ c', c.compact = .ok c' ∧ c'.Ready
    ∧ c'.pending = c.pending ∧ c'.readStart = compactStart c.readStart := by
  rw [Reader.compact, compactStart]
  split
  · refine ⟨_, by rw [window_eq h.start_le h.end_le]; rfl, ⟨Nat.zero_le _, ?_⟩, ?_, rfl⟩
    · exact (Nat.sub_le _ _).trans h.end_le
    · have := Mem.read_write_same c.readBuffer 0 c.pending
      rwa [length_pending] at this
  · exact ⟨c, rfl, h, rfl, rfl⟩

end Reader

/-! ## TCP -/

namespace Tcp

/-- Every call of `Read` finds one byte, until all have been received. -/
structure Trickles (t : Tcp) : Prop where
  one : ∀ k ∈ t.finds, k = 0
  enough : t.bytes.length ≤ t.finds.length

/-- What a call of `Read` with a destination of `len` bytes leaves. -/
structure Found (t : Tcp) (len : ℕ) (bs : Bytes) (t' : Tcp) : Prop where
  bytes_eq : bs ++ t'.bytes = t.bytes
  length_le : bs.length ≤ len
  finds_lt : t'.finds.length < t.finds.length
  trickles : t.Trickles → t'.Trickles ∧ bs.length = 1

theorem read_ends (t : Tcp) (len : ℕ) :
    (t.read len).Ends (fun f => f = .endless ∧ len = 0)
      fun r => r.elim (t.Trickles → t.bytes = []) fun p => t.Found len p.1 p.2 := by
  obtain ⟨bytes, finds⟩ := t
  rw [Tcp.read]
  split
  · next hlen => exact ⟨rfl, hlen⟩
  · next hlen =>
    cases finds with
    | nil => exact fun h => List.length_eq_zero_iff.mp (Nat.le_zero.mp h.enough)
    | cons k finds =>
      dsimp only
      split
      · next hnil => exact fun _ => hnil
      · next hne =>
        refine ⟨List.take_append_drop _ _, ?_, Nat.lt_succ_self _, fun h => ?_⟩
        · rw [List.length_take]
          omega
        · obtain rfl : k = 0 := h.one k List.mem_cons_self
          have hpos : 0 < bytes.length := List.length_pos_iff.mpr hne
          have henough := h.enough
          rw [List.length_cons] at henough
          have hmin : min (0 + 1) len = 1 := by omega
          refine ⟨⟨fun k hk => h.one k (List.mem_cons_of_mem _ hk), ?_⟩, ?_⟩
          · dsimp only
            rw [List.length_drop, hmin]
            dsimp only at henough
            omega
          · rw [List.length_take, hmin]
            omega

end Tcp

namespace Reader

variable {c : Reader} {t : Tcp}

/-! ## The loops -/

/-- What a loop that was asked for `need` bytes leaves. -/
structure Filled (need : ℕ) (c : Reader) (t : Tcp) (c' : Reader) (t' : Tcp) : Prop where
  ready : c'.Ready
  start_eq : c'.readStart = c.readStart
  stream_eq : c'.stream t' = c.stream t
  enough : need ≤ c'.pending.length
  trickles : t.Trickles → t'.Trickles ∧ (c.pending.length ≤ need → c'.pending.length = need)

/-- **The loop loses nothing**; it goes on forever only if the buffer has no room for `need`
bytes. -/
theorem Ready.fill (need : ℕ) : ∀ (fuel : ℕ) {c : Reader} {t : Tcp}, c.Ready →
    t.finds.length < fuel →
    (Reader.fill need fuel c t).Ends
      (fun f => f = .endless ∧ readBufferSize < c.readStart + need
        ∧ readBufferSize ≤ c.readStart + (c.stream t).length)
      fun r => r.elim (t.Trickles → (c.stream t).length < need
        ∧ c.readStart + (c.stream t).length < readBufferSize) fun p => Filled need c t p.1 p.2
  | 0, _, _, _, hfuel => absurd hfuel (Nat.not_lt_zero _)
  | fuel + 1, c, t, h, hfuel => by
      have h1 := h.start_le
      have h2 := h.end_le
      have hstream : (c.stream t).length = c.readEnd - c.readStart + t.bytes.length := by
        rw [stream, List.length_append, length_pending]
      rw [Reader.fill]
      split
      · next hless =>
        rw [window_eq h2 le_rfl, Call.ok_bind, Mem.length_read]
        rcases Nat.eq_zero_or_pos (readBufferSize - c.readEnd) with hzero | hpos
        · rw [hzero]
          exact ⟨rfl, by omega, by omega⟩
        refine Call.Ends.seq ((t.read_ends _).mono (fun f hf => absurd hf.2 hpos.ne') fun r h => h)
          fun r hr => ?_
        rcases r with _ | ⟨bs, t₁⟩
        · refine fun htr => ?_
          rw [hstream, hr htr, List.length_nil]
          omega
        · replace hr : t.Found (readBufferSize - c.readEnd) bs t₁ := hr
          obtain ⟨hready, hpend⟩ := h.receive hr.length_le
          have hsame : (c.receive bs).stream t₁ = c.stream t := by
            rw [stream, hpend, List.append_assoc, hr.bytes_eq, stream]
          have hlt := hr.finds_lt
          have hrec := hready.fill need fuel (t := t₁) (by omega)
          rw [hsame] at hrec
          refine hrec.mono (fun f hf => hf) fun r hr' => ?_
          rcases r with _ | ⟨c', t'⟩
          · exact fun htr => hr' (hr.trickles htr).1
          · refine ⟨hr'.ready, hr'.start_eq, hr'.stream_eq.trans hsame, hr'.enough, fun htr => ?_⟩
            obtain ⟨htr₁, hone⟩ := hr.trickles htr
            obtain ⟨htr', hexact⟩ := hr'.trickles htr₁
            refine ⟨htr', fun _ => hexact ?_⟩
            rw [hpend, List.length_append, length_pending, hone]
            omega
      · next hge =>
        have henough : need ≤ c.pending.length := by rw [length_pending]; omega
        exact ⟨h, rfl, rfl, henough, fun htr => ⟨htr, fun hle => le_antisymm hle henough⟩⟩

/-- **A big message is collected from the buffer and the connection.** -/
theorem fillBig_ends (size : ℕ) : ∀ (fuel : ℕ) {big : Bytes} {t : Tcp}, t.finds.length < fuel →
    big.length ≤ size →
    (fillBig size fuel big t).Ends (fun _ => False)
      fun r => r.elim (t.Trickles → (big ++ t.bytes).length < size)
        fun p => p.1.length = size ∧ p.1 ++ p.2.bytes = big ++ t.bytes ∧ (t.Trickles → p.2.Trickles)
  | 0, _, _, hfuel, _ => absurd hfuel (Nat.not_lt_zero _)
  | fuel + 1, big, t, hfuel, hle => by
      rw [fillBig]
      split
      · next hless =>
        refine Call.Ends.seq ((t.read_ends _).mono (fun f hf => absurd hf.2 (by omega))
          fun r h => h) fun r hr => ?_
        rcases r with _ | ⟨bs, t₁⟩
        · refine fun htr => ?_
          rwa [hr htr, List.append_nil]
        · replace hr : t.Found (size - big.length) bs t₁ := hr
          have hlen := hr.length_le
          have hlt := hr.finds_lt
          have hrec := fillBig_ends size fuel (t := t₁) (by omega)
            (show (big ++ bs).length ≤ size by rw [List.length_append]; omega)
          rw [List.append_assoc, hr.bytes_eq] at hrec
          refine hrec.mono (fun f hf => hf) fun r hr' => ?_
          rcases r with _ | ⟨big', t'⟩
          · exact fun htr => hr' (hr.trickles htr).1
          · exact ⟨hr'.1, hr'.2.1, fun htr => hr'.2.2 (hr.trickles htr).1⟩
      · next hge => exact ⟨le_antisymm hle (not_lt.mp hge), rfl, id⟩

end Reader

/-! ## One call of `Read` -/

/-- The first frame of a byte stream, by the size in its header, and the bytes behind it. -/
def frame (bytes : Bytes) : Option (Bytes × Bytes) :=
  if bytes.length < minimumMessageSize ∨ bytes.length < leNat (bytes.take 4) then none
  else some (bytes.take (leNat (bytes.take 4)), bytes.drop (leNat (bytes.take 4)))

theorem frame_eq {src rest : Bytes} (h : minimumMessageSize ≤ (src ++ rest).length)
    (hsize : leNat ((src ++ rest).take 4) = src.length) :
    frame (src ++ rest) = some (src, rest) := by
  rw [frame, hsize, if_neg (by rw [List.length_append] at h ⊢; omega), List.take_left,
    List.drop_left]

/-- Where the next frame starts, behind a frame of `size` bytes at `start`. -/
def advance (start size : ℕ) : ℕ :=
  if size > readBufferSize - start then 0 else Reader.compactStart start + size

namespace Reader

variable {c : Reader} {t : Tcp}

/-- What a call of `Read` that returns the message of the frame `src` does. -/
structure Took (src : Bytes) (c : Reader) (t : Tcp) (p : Message × Reader × Tcp) : Prop where
  wellFormed : WellFormed src
  msg_eq : p.1 = .ofFrame src
  ready : p.2.1.Ready
  frame_eq : frame (c.stream t) = some (src, p.2.1.stream p.2.2)
  start_eq : p.2.1.readStart = advance c.readStart src.length
  trickles : t.Trickles → c.pending.length ≤ minimumMessageSize →
    p.2.2.Trickles ∧ p.2.1.pending = []

/-- There is no room behind `readStart` for a header, and enough bytes to fill what there is. -/
def Stuck (c : Reader) (t : Tcp) : Prop :=
  readBufferSize < c.readStart + minimumMessageSize
    ∧ readBufferSize ≤ c.readStart + (c.stream t).length

/-- The first frame of the stream is not well-formed. -/
def Misframed (c : Reader) (t : Tcp) : Prop :=
  ∃ src rest, frame (c.stream t) = some (src, rest) ∧ ¬ WellFormed src

/-- A call of `Read` takes the first frame off the stream. -/
def Takes (c : Reader) (t : Tcp) (E : Prop) (x : Call (Option (Message × Reader × Tcp))) : Prop :=
  x.Ends (fun f => (f = .endless ∧ E) ∨ (f = .bounds ∧ c.Misframed t))
    fun r => r.elim (t.Trickles → frame (c.stream t) = none ∧ ¬ E)
      fun p => (∃ src, Took src c t p) ∧ ¬ E

theorem takes_unmarshal {src : Bytes} (c' : Reader) {t' : Tcp} (hready : c'.Ready)
    (hframe : frame (c.stream t) = some (src, c'.stream t'))
    (hstart : c'.readStart = advance c.readStart src.length)
    (htr : t.Trickles → c.pending.length ≤ minimumMessageSize → minimumMessageSize ≤ src.length →
      t'.Trickles ∧ c'.pending = []) :
    c.Takes t False (unmarshal src >>= fun msg => pure (some (msg, c', t'))) := by
  rw [unmarshal_eq]
  split
  · next hwf =>
    exact ⟨⟨src, hwf, rfl, hready, hframe, hstart, fun h hle => htr h hle hwf.1⟩, id⟩
  · next hwf => exact Or.inr ⟨rfl, src, _, hframe, hwf⟩

/-- A stream that is shorter than its first frame says has no first frame. -/
theorem frame_eq_none {bytes : Bytes} (h : bytes.length < leNat (bytes.take 4)) :
    frame bytes = none := if_pos (Or.inr h)

/-- The header is in the buffer. -/
theorem take_stream (h : minimumMessageSize ≤ c.pending.length) :
    (c.stream t).take 4 = c.pending.take 4 := by
  have h4 : 4 ≤ minimumMessageSize := by decide
  exact List.take_append_of_le_length (h4.trans h)

/-- **The path of the big messages takes the first frame.** -/
theorem Ready.readBig (h : c.Ready) (hmin : minimumMessageSize ≤ c.pending.length) {size : ℕ}
    (hsize : leNat (c.pending.take 4) = size) (hbig : readBufferSize - c.readStart < size) :
    c.Takes t False (c.readBig t size) := by
  have h1 := h.start_le
  have h2 := h.end_le
  have hlen : c.pending.length < size := by
    rw [length_pending]
    omega
  rw [← take_stream (t := t) hmin] at hsize
  rw [Reader.readBig, window_eq h1 h2, Call.ok_bind]
  refine Call.Ends.seq ((fillBig_ends _ _ (Nat.lt_succ_self _) hlen.le).mono (fun f hf => hf.elim)
    fun r hr => hr) fun r hr => ?_
  rcases r with _ | ⟨big, t'⟩
  · exact fun htr => ⟨frame_eq_none (by rw [hsize]; exact hr htr), id⟩
  · obtain ⟨hsz, happ, htr⟩ := hr
    dsimp only at hsz happ htr
    refine takes_unmarshal { c with readStart := 0, readEnd := 0 } ⟨le_rfl, Nat.zero_le _⟩
      ?_ ?_ fun h _ _ => ⟨htr h, rfl⟩
    · have hstream : c.stream t = big ++ t'.bytes := happ.symm
      rw [hstream] at hsize ⊢
      refine frame_eq ?_ (hsize.trans hsz.symm)
      rw [List.length_append]
      omega
    · rw [advance, if_pos (by omega)]

/-- **The path of the other messages takes the first frame.** -/
theorem Ready.readBuffered (h : c.Ready) (hmin : minimumMessageSize ≤ c.pending.length) {size : ℕ}
    (hsize : leNat (c.pending.take 4) = size) (hfit : size ≤ readBufferSize - c.readStart) :
    c.Takes t False (c.readBuffered t size) := by
  have h1 := h.start_le
  have h2 := h.end_le
  rw [← take_stream (t := t) hmin] at hsize
  rw [Reader.readBuffered]
  refine Call.Ends.seq ((h.fill size _ (Nat.lt_succ_self _)).mono
    (fun f hf => absurd hf.2.1 (by omega)) fun r hr => hr) fun r hr => ?_
  rcases r with _ | ⟨c₁, t₁⟩
  · exact fun htr => ⟨frame_eq_none (by rw [hsize]; exact (hr htr).1), id⟩
  replace hr : Filled size c t c₁ t₁ := hr
  obtain ⟨c₂, hcompact, hready, hpend, hstart⟩ := hr.ready.compact
  dsimp only
  rw [hcompact, Call.ok_bind]
  have hready₁ := hready.start_le
  have hready₂ := hready.end_le
  have henough := hr.enough
  rw [← hpend] at henough
  have hlen := length_pending c₂
  have hcut : c₂.readEnd - c₂.readStart = size + (c₂.readEnd - (c₂.readStart + size)) := by omega
  -- the frame is the first `size` bytes of the buffer, and the others stay
  have hsplit : c₂.readBuffer.read c₂.readStart size
      ++ Reader.pending { c₂ with readStart := c₂.readStart + size } = c₂.pending := by
    rw [pending, pending, hcut, Mem.read_add]
  have hstream : c₂.readBuffer.read c₂.readStart size
      ++ Reader.stream { c₂ with readStart := c₂.readStart + size } t₁ = c.stream t := by
    rw [← hr.stream_eq, stream, stream, ← List.append_assoc, hsplit, hpend]
  rw [window_eq (by omega) (by omega), Call.ok_bind,
    show c₂.readStart + size - size = c₂.readStart by omega,
    show c₂.readStart + size - c₂.readStart = size by omega]
  refine takes_unmarshal _ ⟨by dsimp only; omega, hready₂⟩ ?_ ?_ fun htr hle hge => ?_
  · rw [← hstream] at hsize ⊢
    refine frame_eq ?_ (by rw [hsize, Mem.length_read])
    rw [hstream, stream, List.length_append]
    omega
  · dsimp only
    rw [Mem.length_read, advance, if_neg (by omega), hstart, hr.start_eq]
  · obtain ⟨htr₁, hexact⟩ := hr.trickles htr
    rw [Mem.length_read] at hge
    refine ⟨htr₁, List.length_eq_zero_iff.mp ?_⟩
    have hall := hexact (hle.trans hge)
    rw [← hpend, ← hsplit, List.length_append, Mem.length_read] at hall
    omega

/-- **One call of `Read` takes the first frame off the stream**, unless there is no room for a
header. -/
theorem Ready.read (h : c.Ready) : c.Takes t (c.Stuck t) (c.read t) := by
  rw [Reader.read]
  refine Call.Ends.seq ((h.fill minimumMessageSize _ (Nat.lt_succ_self _)).mono
    (fun f hf => Or.inl hf) fun r hr => hr) fun r hr => ?_
  rcases r with _ | ⟨c₁, t₁⟩
  · exact fun htr => ⟨if_pos (Or.inl (hr htr).1), fun h => absurd h.2 (not_le.mpr (hr htr).2)⟩
  replace hr : Filled minimumMessageSize c t c₁ t₁ := hr
  have hmin := hr.enough
  have h1 := hr.ready.start_le
  have h2 := hr.ready.end_le
  have hlen := length_pending c₁
  have h13 : minimumMessageSize = 13 := rfl
  have hhead : (c₁.readBuffer.read c₁.readStart (readBufferSize - c₁.readStart)).take 4
      = c₁.pending.take 4 := by
    rw [Mem.take_read _ (by omega), pending, Mem.take_read _ (by omega)]
  dsimp only
  rw [window_eq (h1.trans h2) le_rfl, Call.ok_bind, slice_eq (Nat.zero_le _)
    (by rw [Mem.length_read]; omega), Call.ok_bind, hhead, List.drop_zero]
  have hroom : ¬ c.Stuck t := fun h => absurd h.1 (by rw [← hr.start_eq]; omega)
  -- what holds of the filled buffer holds of the buffer before
  have hback : ∀ {x}, c₁.Takes t₁ False x → c.Takes t (c.Stuck t) x := fun hx => by
    rw [Takes, Misframed, hr.stream_eq] at hx
    refine Call.Ends.mono hx (fun f hf => hf.imp (fun h => h.2.elim) id) fun r hp => ?_
    rcases r with _ | p
    · exact fun htr => ⟨(hp (hr.trickles htr).1).1, hroom⟩
    · obtain ⟨⟨src, htook⟩, -⟩ := hp
      refine ⟨⟨src, htook.wellFormed, htook.msg_eq, htook.ready, ?_, ?_, fun htr hle => ?_⟩, hroom⟩
      · rw [← hr.stream_eq]
        exact htook.frame_eq
      · rw [← hr.start_eq]
        exact htook.start_eq
      · obtain ⟨htr₁, hexact⟩ := hr.trickles htr
        exact htook.trickles htr₁ (hexact hle).le
  split
  · next hbig => exact hback (hr.ready.readBig hmin rfl hbig)
  · next hfit => exact hback (hr.ready.readBuffered hmin rfl (not_lt.mp hfit))

end Reader

end Treeless
