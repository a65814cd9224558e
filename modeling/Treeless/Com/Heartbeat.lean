import Treeless.Com.Protocol
import Mathlib.Data.List.Infix
import Mathlib.Order.Lattice

/-!
# Com/Heartbeat — the heartbeat message and its layout

    0:2         the number of known chunks
    12 bytes    for each of them: four of ID, eight of checksum
    2+n bytes   for each recently added server: the length n of its address, and the address
    0 0
    2+n bytes   for each recently dead server
    0 0

A heartbeat is always `MaxHeartbeatSize` bytes.  `Marshal` sends as many servers as fit
(`IsLongestFit`) and checks no room for the chunks; there is room for 116 of them (`marshal_eq`,
`marshal_eq_error`).  `AmAliveUnMarshal` stays at the `0 0` behind the added servers, reads it once
more as the end of the dead ones, and so never sees a dead server (`unmarshal_frame`).
-/

namespace Treeless

def maxHeartbeatSize : ℕ := 1400

/-- A chunk known by a server, as a heartbeat reports it. -/
@[ext] structure KnownChunk where
  id : ℤ
  checksum : UInt64
  deriving DecidableEq, Repr

/-- Heartbeat information. -/
structure AmAlive where
  knownChunks : List KnownChunk
  recentlyAddedServers : List Bytes
  recentlyDeadServers : List Bytes
  deriving DecidableEq, Repr

/-! ## Marshal -/

/-- The message being written, and where the slice `m` of it starts.  It ends with the message. -/
structure Unwritten where
  msg : Mem
  start : ℕ

namespace Unwritten

variable (m : Unwritten)

/-- `len(m)` -/
def len : ℕ := maxHeartbeatSize - m.start

/-- Writes all of `bs` to `m[pos:]`. -/
def put (pos : ℕ) (bs : Bytes) : Call Unwritten :=
  if m.start + pos + bs.length ≤ maxHeartbeatSize then
    .ok { m with msg := m.msg.write (m.start + pos) bs }
  else .error .bounds

/-- Copies to `m[pos:]` what fits of `bs`. -/
def copy (pos : ℕ) (bs : Bytes) : Call Unwritten :=
  if m.start + pos ≤ maxHeartbeatSize then
    .ok { m with msg := m.msg.write (m.start + pos) (bs.take (m.len - pos)) }
  else .error .bounds

/-- `m[n:]` -/
def skip (n : ℕ) : Call Unwritten :=
  if m.start + n ≤ maxHeartbeatSize then .ok { m with start := m.start + n } else .error .bounds

end Unwritten

/-- Writes a known chunk. -/
def marshalChunk (m : Unwritten) (c : KnownChunk) : Call Unwritten := do
  let m ← m.put 0 (leBytes 4 (c.id % 2 ^ 32).toNat)
  let m ← m.put 4 (leBytes 8 c.checksum.toNat)
  m.skip 12

/-- Writes addresses, up to the first one that does not leave more than `reserve` bytes. -/
def marshalServers (reserve : ℕ) : List Bytes → Unwritten → Call Unwritten
  | [], m => .ok m
  | addr :: addrs, m =>
    if addr.length + reserve ≥ m.len then .ok m
    else do
      let m ← m.put 0 (leBytes 2 addr.length)
      let m ← m.copy 2 addr
      marshalServers reserve addrs (← m.skip (2 + addr.length))

/-- Serializes the heartbeat. -/
def AmAlive.marshal (aa : AmAlive) : Call Bytes := do
  let msg : Unwritten := ⟨fun _ => 0, 0⟩
  let msg ← msg.put 0 (leBytes 2 aa.knownChunks.length)
  let m ← msg.skip 2
  let m ← aa.knownChunks.foldlM marshalChunk m
  let m ← marshalServers 64 aa.recentlyAddedServers m
  let m ← m.put 0 (leBytes 2 0)
  let m ← m.skip 2
  let m ← marshalServers 4 aa.recentlyDeadServers m
  let m ← m.put 0 (leBytes 2 0)
  return m.msg.read 0 maxHeartbeatSize

/-! ## AmAliveUnMarshal -/

/-- A slice of a receive buffer: the bytes from its start to the end of the buffer, and its
length. -/
@[ext] structure Packet where
  buf : Bytes
  len : ℕ
  len_le : len ≤ buf.length

namespace Packet

variable (m : Packet)

/-- The packet that fills its buffer. -/
def whole (bs : Bytes) : Packet := ⟨bs, bs.length, le_rfl⟩

/-- The word of `width` bytes at `m[pos:]`, which is an index into the slice. -/
def uint (pos width : ℕ) : Call ℕ := leNat <$> slice (m.buf.take m.len) pos (pos + width)

/-- `m[lo:hi]`, which may pass the end of the slice but not that of its buffer. -/
def sub (lo hi : ℕ) : Call Bytes := slice m.buf lo hi

/-- `m[n:]` -/
def skip (n : ℕ) : Call Packet :=
  if n ≤ m.len then
    .ok ⟨m.buf.drop n, m.len - n, by rw [List.length_drop]; exact Nat.sub_le_sub_right m.len_le n⟩
  else .error .bounds

end Packet

/-- The errors of a heartbeat. -/
inductive BadFormatting
  | error1
  | error2
  | error3
  deriving DecidableEq, Repr

/-- The text of an error. -/
def BadFormatting.text : BadFormatting → String
  | error1 => "Bad formatting, error 1"
  | error2 => "Bad formatting, error 2"
  | error3 => "Bad formatting, error 3"

/-- Reads known chunks, and what is left behind them. -/
def unmarshalChunks : ℕ → Packet → Call (Except BadFormatting (List KnownChunk × Packet))
  | 0, m => .ok (.ok ([], m))
  | n + 1, m =>
    if m.len < 16 then .ok (.error .error1)
    else do
      let id ← m.uint 0 4
      let checksum ← m.uint 4 8
      let m ← m.skip 12
      match ← unmarshalChunks n m with
      | .error e => return .error e
      | .ok (chunks, m) => return .ok (⟨id, UInt64.ofNat checksum⟩ :: chunks, m)

/-- Reads addresses up to a zero length, and what is left from there on.  The end of an address is
computed in 16 bits. -/
def unmarshalServers (room : ℕ) (err : BadFormatting) :
    ℕ → Packet → Call (Except BadFormatting (List Bytes × Packet))
  | 0, _ => .error .endless
  | fuel + 1, m =>
    if m.len < room then .ok (.error err)
    else do
      let lenAddr ← m.uint 0 2
      if lenAddr = 0 then return .ok ([], m)
      else
        let stop := (2 + lenAddr) % 2 ^ 16
        let addr ← m.sub 2 stop
        let m ← m.skip stop
        match ← unmarshalServers room err fuel m with
        | .error e => return .error e
        | .ok (addrs, m) => return .ok (addr :: addrs, m)

/-- Unserializes a heartbeat. -/
def amAliveUnMarshal (msg : Packet) : Call (Except BadFormatting AmAlive) := do
  let lenKnownChunks ← msg.uint 0 2
  let m ← msg.skip 2
  match ← unmarshalChunks lenKnownChunks m with
  | .error e => return .error e
  | .ok (knownChunks, m) =>
    match ← unmarshalServers 4 .error2 (m.len + 1) m with
    | .error e => return .error e
    | .ok (recentlyAddedServers, m) =>
      match ← unmarshalServers 2 .error3 (m.len + 1) m with
      | .error e => return .error e
      | .ok (recentlyDeadServers, _) =>
        return .ok ⟨knownChunks, recentlyAddedServers, recentlyDeadServers⟩

/-! ## What fits -/

/-- Each address in turn leaves more than `reserve` bytes of the room. -/
def Fits (reserve : ℕ) : ℕ → List Bytes → Prop
  | _, [] => True
  | room, addr :: addrs =>
    addr.length + reserve < room ∧ Fits reserve (room - (2 + addr.length)) addrs

/-- `sent` is the longest prefix of `addrs` that fits. -/
structure IsLongestFit (reserve room : ℕ) (addrs sent : List Bytes) : Prop where
  initial : sent <+: addrs
  fits : Fits reserve room sent
  longest : ∀ others, others <+: addrs → Fits reserve room others → others <+: sent

/-- The addresses that are sent. -/
def fitting (reserve : ℕ) : ℕ → List Bytes → List Bytes
  | _, [] => []
  | room, addr :: addrs =>
    if addr.length + reserve < room then
      addr :: fitting reserve (room - (2 + addr.length)) addrs
    else []

/-- **The addresses that are sent are the longest prefix that fits.** -/
theorem isLongestFit_fitting (reserve : ℕ) : ∀ (room : ℕ) (addrs : List Bytes),
    IsLongestFit reserve room addrs (fitting reserve room addrs)
  | _, [] => ⟨List.prefix_rfl, trivial, fun _ h _ => h⟩
  | room, addr :: addrs => by
      have ih := isLongestFit_fitting reserve (room - (2 + addr.length)) addrs
      rw [fitting]
      split
      · next hroom =>
        refine ⟨(List.prefix_cons_inj addr).mpr ih.initial, ⟨hroom, ih.fits⟩, ?_⟩
        intro others hpre hfits
        cases others with
        | nil => exact List.nil_prefix
        | cons other others =>
          obtain ⟨rfl, hrest⟩ := List.cons_prefix_cons.mp hpre
          exact (List.prefix_cons_inj _).mpr (ih.longest others hrest hfits.2)
      · next hroom =>
        refine ⟨ List.nil_prefix, trivial, ?_⟩
        intro others hpre hfits
        cases others with
        | nil => exact List.prefix_rfl
        | cons other others =>
          obtain ⟨rfl, -⟩ := List.cons_prefix_cons.mp hpre
          exact absurd hfits.1 hroom

theorem IsLongestFit.unique {reserve room : ℕ} {addrs sent sent' : List Bytes}
    (h : IsLongestFit reserve room addrs sent) (h' : IsLongestFit reserve room addrs sent') :
    sent = sent' :=
  (h'.longest sent h.initial h.fits).eq_of_length
    (Nat.le_antisymm (h'.longest sent h.initial h.fits).length_le
      (h.longest sent' h'.initial h'.fits).length_le)

/-! ## The layout -/

def KnownChunk.encode (c : KnownChunk) : Bytes :=
  leBytes 4 (c.id % 2 ^ 32).toNat ++ leBytes 8 c.checksum.toNat

/-- The bytes of addresses, each behind its length. -/
def encodeServers (addrs : List Bytes) : Bytes :=
  addrs.flatMap fun addr => leBytes 2 addr.length ++ addr

@[simp] theorem encodeServers_nil : encodeServers [] = [] := rfl

@[simp] theorem encodeServers_cons (addr : Bytes) (addrs : List Bytes) :
    encodeServers (addr :: addrs) = leBytes 2 addr.length ++ addr ++ encodeServers addrs :=
  List.flatMap_cons

@[simp] theorem KnownChunk.length_encode (c : KnownChunk) : c.encode.length = 12 := by
  simp [KnownChunk.encode]

@[simp] theorem length_flatMap_knownChunk : ∀ chunks : List KnownChunk,
    (chunks.flatMap KnownChunk.encode).length = 12 * chunks.length
  | [] => rfl
  | c :: chunks => by
      rw [List.flatMap_cons, List.length_append, c.length_encode, length_flatMap_knownChunk chunks,
        List.length_cons]
      omega

/-- What fits leaves every room smaller than the reserve. -/
theorem Fits.length_add_le {reserve k : ℕ} (hk : k < reserve) : ∀ {room : ℕ} {addrs : List Bytes},
    Fits reserve room addrs → k ≤ room → (encodeServers addrs).length + k ≤ room
  | _, [], _, hroom => by rwa [encodeServers_nil, List.length_nil, Nat.zero_add]
  | room, addr :: addrs, h, hroom => by
      have hlt := h.1
      have hle := Fits.length_add_le hk h.2 (by omega)
      simp only [encodeServers_cons, List.length_append, length_leBytes]
      omega

/-! ## What `Marshal` writes -/

namespace Unwritten

/-- The slice behind the bytes `w`, with the bytes `v` written to its start. -/
def behind (w v : Bytes) : Unwritten := ⟨Mem.write (fun _ => 0) 0 (w ++ v), w.length⟩

variable {w v bs : Bytes} {n : ℕ}

theorem behind_nil : (⟨fun _ => 0, 0⟩ : Unwritten) = behind [] [] := by
  have hnil : Mem.write (fun _ => 0) 0 [] = fun _ => 0 := funext fun i =>
    Mem.write_apply_of_outside (fun _ => 0) (Or.inr (Nat.zero_le i))
  rw [behind, List.append_nil, hnil]
  rfl

theorem len_behind : (behind w v).len = maxHeartbeatSize - w.length := rfl

theorem write_behind (hn : v.length = n) :
    { behind w v with msg := (behind w v).msg.write (w.length + n) bs } = behind w (v ++ bs) := by
  have h := Mem.write_append (fun _ => 0) 0 (w ++ v) bs
  rw [Nat.zero_add, List.length_append, hn, List.append_assoc] at h
  exact congrArg (Unwritten.mk · w.length) h

theorem put_behind (hn : v.length = n) (hroom : w.length + n + bs.length ≤ maxHeartbeatSize) :
    (behind w v).put n bs = .ok (behind w (v ++ bs)) :=
  (if_pos hroom).trans (congrArg Except.ok (write_behind hn))

theorem copy_behind (hn : v.length = n) (hroom : w.length + n + bs.length ≤ maxHeartbeatSize) :
    (behind w v).copy n bs = .ok (behind w (v ++ bs)) := by
  have hall : bs.take ((behind w v).len - n) = bs :=
    List.take_of_length_le (by rw [len_behind]; omega)
  rw [copy, hall]
  exact (if_pos (show w.length + n ≤ _ by omega)).trans (congrArg Except.ok (write_behind hn))

theorem skip_behind (hn : v.length = n) (hroom : w.length + n ≤ maxHeartbeatSize) :
    (behind w v).skip n = .ok (behind (w ++ v) []) := by
  refine (if_pos hroom).trans ?_
  rw [behind, behind, List.append_nil, List.length_append, hn]

end Unwritten

open Unwritten

/-- **A chunk is written** if there is room for it. -/
theorem marshalChunk_behind {w : Bytes} (c : KnownChunk)
    (hroom : w.length + 12 ≤ maxHeartbeatSize) :
    marshalChunk (behind w []) c = .ok (behind (w ++ c.encode) []) := by
  have hid := length_leBytes 4 (c.id % 2 ^ 32).toNat
  have hsum := length_leBytes 8 c.checksum.toNat
  rw [marshalChunk, put_behind (n := 0) rfl (by omega), Call.ok_bind, List.nil_append,
    put_behind hid (by omega), Call.ok_bind]
  exact skip_behind c.length_encode hroom

/-- There is no check of the room for a chunk. -/
theorem marshalChunk_eq_error {w : Bytes} (c : KnownChunk)
    (hroom : maxHeartbeatSize < w.length + 12) : marshalChunk (behind w []) c = .error .bounds := by
  have hid := length_leBytes 4 (c.id % 2 ^ 32).toNat
  have hsum := length_leBytes 8 c.checksum.toNat
  rw [marshalChunk]
  by_cases hfirst : w.length + 4 ≤ maxHeartbeatSize
  · rw [put_behind (n := 0) rfl (by omega), Call.ok_bind]
    exact congrArg (· >>= _) (if_neg (show ¬ w.length + 4 + _ ≤ _ by omega))
  · exact congrArg (· >>= _) (if_neg (show ¬ w.length + 0 + _ ≤ _ by omega))

/-- **The chunks are written** while there is room for them. -/
theorem foldlM_marshalChunk : ∀ (chunks : List KnownChunk) {w : Bytes},
    w.length + 12 * chunks.length ≤ maxHeartbeatSize →
      chunks.foldlM marshalChunk (behind w [])
        = .ok (behind (w ++ chunks.flatMap KnownChunk.encode) [])
  | [], w, _ => by rw [List.flatMap_nil, List.append_nil]; rfl
  | c :: chunks, w, hroom => by
      rw [List.length_cons] at hroom
      rw [List.foldlM_cons, marshalChunk_behind c (by omega), Call.ok_bind,
        foldlM_marshalChunk chunks (by rw [List.length_append, c.length_encode]; omega),
        List.flatMap_cons, List.append_assoc]

/-- The chunks do not fit, and this is not checked. -/
theorem foldlM_marshalChunk_eq_error : ∀ (chunks : List KnownChunk) {w : Bytes},
    w.length ≤ maxHeartbeatSize → maxHeartbeatSize < w.length + 12 * chunks.length →
      chunks.foldlM marshalChunk (behind w []) = .error .bounds
  | [], w, hle, hlt => by
      rw [List.length_nil] at hlt
      omega
  | c :: chunks, w, hle, hlt => by
      rw [List.length_cons] at hlt
      rw [List.foldlM_cons]
      by_cases hroom : w.length + 12 ≤ maxHeartbeatSize
      · have hlen : (w ++ c.encode).length = w.length + 12 := by
          rw [List.length_append, c.length_encode]
        rw [marshalChunk_behind c hroom, Call.ok_bind]
        exact foldlM_marshalChunk_eq_error chunks (by omega) (by omega)
      · rw [marshalChunk_eq_error c (by omega)]
        rfl

/-- **The addresses that fit are written.** -/
theorem marshalServers_behind {reserve : ℕ} (h2 : 2 ≤ reserve) : ∀ (addrs : List Bytes) {w : Bytes},
    marshalServers reserve addrs (behind w [])
      = .ok (behind (w ++ encodeServers (fitting reserve (maxHeartbeatSize - w.length) addrs)) [])
  | [], w => by rw [fitting, encodeServers_nil, List.append_nil]; rfl
  | addr :: addrs, w => by
      rw [marshalServers, fitting, len_behind]
      split
      · next hfull => rw [if_neg (by omega), encodeServers_nil, List.append_nil]
      · next hfits =>
        have hword : (leBytes 2 addr.length).length = 2 := length_leBytes ..
        have hboth : (leBytes 2 addr.length ++ addr).length = 2 + addr.length := by
          rw [List.length_append, hword]
        rw [put_behind (n := 0) rfl (by omega), Call.ok_bind, List.nil_append,
          copy_behind hword (by omega), Call.ok_bind, skip_behind hboth (by omega), Call.ok_bind,
          marshalServers_behind h2 addrs, if_pos (by omega), encodeServers_cons,
          List.append_assoc w, List.length_append, hboth, Nat.sub_sub]

namespace AmAlive

variable (aa : AmAlive)

/-- The room behind the chunks. -/
def addedRoom : ℕ := maxHeartbeatSize - (2 + 12 * aa.knownChunks.length)

/-- The added servers that are sent. -/
def sentAdded : List Bytes := fitting 64 aa.addedRoom aa.recentlyAddedServers

/-- The room behind the added servers and their end. -/
def deadRoom : ℕ := aa.addedRoom - (encodeServers aa.sentAdded).length - 2

/-- The dead servers that are sent. -/
def sentDead : List Bytes := fitting 4 aa.deadRoom aa.recentlyDeadServers

/-- The number of chunks, and the chunks. -/
def front : Bytes :=
  leBytes 2 aa.knownChunks.length ++ aa.knownChunks.flatMap KnownChunk.encode

/-- The bytes of the heartbeat, without the zeros that fill it up. -/
def frame : Bytes :=
  aa.front ++ encodeServers aa.sentAdded ++ leBytes 2 0 ++ encodeServers aa.sentDead ++ leBytes 2 0

theorem length_front : aa.front.length = 2 + 12 * aa.knownChunks.length := by
  rw [front, List.length_append, length_leBytes, length_flatMap_knownChunk]

variable {aa}

/-- Behind up to 116 chunks there is room for the end of the added servers, and behind that one for
the end of the dead ones. -/
theorem length_frame_le (h : aa.knownChunks.length ≤ 116) :
    (aa.front ++ encodeServers aa.sentAdded).length + 2 ≤ maxHeartbeatSize
    ∧ aa.deadRoom
      = maxHeartbeatSize - (aa.front ++ encodeServers aa.sentAdded ++ leBytes 2 0).length
    ∧ aa.frame.length ≤ maxHeartbeatSize := by
  have hmax : maxHeartbeatSize = 1400 := rfl
  have hfront := aa.length_front
  have hadded : (encodeServers aa.sentAdded).length + 4 ≤ aa.addedRoom :=
    (isLongestFit_fitting 64 _ _).fits.length_add_le (by decide) (by rw [addedRoom]; omega)
  have hdead : (encodeServers aa.sentDead).length + 2 ≤ aa.deadRoom :=
    (isLongestFit_fitting 4 _ _).fits.length_add_le (by decide) (by rw [deadRoom]; omega)
  simp only [frame, deadRoom, addedRoom, List.length_append, length_leBytes] at *
  omega

/-- **Up to 116 chunks, `Marshal` writes the layout.** -/
theorem marshal_eq (h : aa.knownChunks.length ≤ 116) :
    aa.marshal = .ok (Mem.read (Mem.write (fun _ => 0) 0 aa.frame) 0 maxHeartbeatSize) := by
  have hmax : maxHeartbeatSize = 1400 := rfl
  have hfront := aa.length_front
  have hcount : (leBytes 2 aa.knownChunks.length).length = 2 := length_leBytes ..
  have hend : (leBytes 2 0).length = 2 := length_leBytes ..
  obtain ⟨hadded, hroom, hframe⟩ := length_frame_le h
  rw [frame, List.length_append, hend] at hframe
  have hchunks : (leBytes 2 aa.knownChunks.length ++ aa.knownChunks.flatMap KnownChunk.encode)
      = aa.front := rfl
  rw [marshal]
  rw [behind_nil, put_behind (n := 0) rfl (by rw [hcount]; decide), Call.ok_bind, List.nil_append,
    skip_behind hcount (by decide), Call.ok_bind, List.nil_append,
    foldlM_marshalChunk _ (by omega), Call.ok_bind, hchunks,
    marshalServers_behind (by decide), Call.ok_bind, hfront]
  change (behind (aa.front ++ encodeServers aa.sentAdded) []).put 0 (leBytes 2 0) >>= _ = _
  rw [put_behind (n := 0) rfl (by omega), Call.ok_bind, List.nil_append, skip_behind hend hadded,
    Call.ok_bind, marshalServers_behind (by decide), Call.ok_bind, ← hroom]
  change (behind (aa.front ++ encodeServers aa.sentAdded ++ leBytes 2 0
    ++ encodeServers aa.sentDead) []).put 0 (leBytes 2 0) >>= _ = _
  rw [put_behind (n := 0) rfl (by omega), Call.ok_bind, List.nil_append]
  rfl

/-- **A 117th chunk is written outside the message.** -/
theorem marshal_eq_error (h : 116 < aa.knownChunks.length) : aa.marshal = .error .bounds := by
  have hmax : maxHeartbeatSize = 1400 := rfl
  have hcount : (leBytes 2 aa.knownChunks.length).length = 2 := length_leBytes ..
  rw [marshal]
  rw [behind_nil, put_behind (n := 0) rfl (by rw [hcount]; decide), Call.ok_bind, List.nil_append,
    skip_behind hcount (by decide), Call.ok_bind, List.nil_append,
    foldlM_marshalChunk_eq_error _ (by omega) (by omega)]
  rfl

/-- **There is room for 116 chunks.** -/
theorem marshal_ok_iff : (∃ msg, aa.marshal = .ok msg) ↔ aa.knownChunks.length ≤ 116 := by
  refine ⟨fun ⟨msg, hmsg⟩ => ?_, fun h => ⟨_, marshal_eq h⟩⟩
  by_contra hmore
  rw [marshal_eq_error (not_le.mp hmore)] at hmsg
  cases hmsg

end AmAlive

/-! ## What `AmAliveUnMarshal` reads -/

namespace Packet

@[simp] theorem len_whole (bs : Bytes) : (whole bs).len = bs.length := rfl

theorem uint_whole (xs : Bytes) (width x : ℕ) (rest : Bytes) {pos : ℕ} (hpos : xs.length = pos) :
    (whole (xs ++ leBytes width x ++ rest)).uint pos width = .ok (x % 256 ^ width) := by
  have hword := length_leBytes width x
  rw [uint, whole, List.take_length, slice_eq (Nat.le_add_right ..)
    (by simp only [List.length_append, hword, hpos]; omega),
    field_eq xs (leBytes width x) rest rfl hpos (by rw [hword]), ← leNat_leBytes]
  rfl

theorem uint_zero_whole (width x : ℕ) (rest : Bytes) :
    (whole (leBytes width x ++ rest)).uint 0 width = .ok (x % 256 ^ width) :=
  uint_whole [] width x rest rfl

theorem sub_whole (xs ys zs : Bytes) {lo hi : ℕ} (hlo : xs.length = lo)
    (hhi : lo + ys.length = hi) : (whole (xs ++ ys ++ zs)).sub lo hi = .ok ys := by
  rw [sub, whole, slice_eq (by omega) (by simp only [List.length_append]; omega),
    field_eq xs ys zs rfl hlo hhi]

theorem skip_whole (xs rest : Bytes) {n : ℕ} (hn : xs.length = n) :
    (whole (xs ++ rest)).skip n = .ok (whole rest) := by
  have hle : n ≤ (whole (xs ++ rest)).len := by
    rw [len_whole, List.length_append]
    omega
  have hlen : (whole (xs ++ rest)).len - n = rest.length := by
    rw [len_whole, List.length_append, hn, Nat.add_sub_cancel_left]
  rw [skip, if_pos hle]
  exact congrArg Except.ok (Packet.ext (List.drop_left' hn) hlen)

end Packet

open Packet

/-- What is read of a chunk: its ID in 32 bits. -/
def KnownChunk.read (c : KnownChunk) : KnownChunk := { c with id := c.id % 2 ^ 32 }

/-- **The chunks are read back**, their IDs in 32 bits, if there are four bytes behind them. -/
theorem unmarshalChunks_eq {rest : Bytes} (hrest : 4 ≤ rest.length) : ∀ chunks : List KnownChunk,
    unmarshalChunks chunks.length (whole (chunks.flatMap KnownChunk.encode ++ rest))
      = .ok (.ok (chunks.map KnownChunk.read, whole rest))
  | [] => rfl
  | c :: chunks => by
      have hmod : 0 ≤ c.id % 2 ^ 32 ∧ c.id % 2 ^ 32 < 2 ^ 32 := by omega
      have hid : ((c.id % 2 ^ 32).toNat % 256 ^ 4 : ℕ) = c.id % 2 ^ 32 := by omega
      have hsum : UInt64.ofNat (c.checksum.toNat % 256 ^ 8) = c.checksum := by simp
      have h16 : ¬ (whole ((c :: chunks).flatMap KnownChunk.encode ++ rest)).len < 16 := by
        rw [len_whole, List.flatMap_cons, List.length_append, List.length_append, c.length_encode]
        omega
      rw [List.length_cons, unmarshalChunks, if_neg h16, List.flatMap_cons, List.append_assoc]
      have huint0 := uint_zero_whole 4 (c.id % 2 ^ 32).toNat (leBytes 8 c.checksum.toNat
        ++ (chunks.flatMap KnownChunk.encode ++ rest))
      have huint4 := uint_whole (leBytes 4 (c.id % 2 ^ 32).toNat) 8 c.checksum.toNat
        (chunks.flatMap KnownChunk.encode ++ rest) (length_leBytes ..)
      have hskip := skip_whole c.encode (chunks.flatMap KnownChunk.encode ++ rest) c.length_encode
      rw [← List.append_assoc] at huint0
      rw [KnownChunk.encode] at hskip
      rw [KnownChunk.encode, huint0, Call.ok_bind, huint4, Call.ok_bind,
        hskip, Call.ok_bind, unmarshalChunks_eq hrest chunks, Call.ok_bind]
      dsimp only
      rw [hid, hsum]
      rfl

/-- **The addresses are read back**, and the zero length behind them is left where it is. -/
theorem unmarshalServers_eq {room : ℕ} (err : BadFormatting) {rest : Bytes}
    (hrest : room ≤ rest.length + 2) : ∀ {addrs : List Bytes} {fuel : ℕ}, addrs.length < fuel →
      (∀ addr ∈ addrs, addr ≠ [] ∧ addr.length + 2 < 2 ^ 16) →
      unmarshalServers room err fuel (whole (encodeServers addrs ++ (leBytes 2 0 ++ rest)))
        = .ok (.ok (addrs, whole (leBytes 2 0 ++ rest)))
  | [], fuel + 1, _, _ => by
      have hroom : ¬ (whole (leBytes 2 0 ++ rest)).len < room := by
        rw [len_whole, List.length_append, length_leBytes]
        omega
      rw [encodeServers_nil, List.nil_append, unmarshalServers, if_neg hroom, uint_zero_whole]
      rfl
  | addr :: addrs, fuel + 1, hfuel, hshort => by
      obtain ⟨hne, hlt⟩ := hshort addr List.mem_cons_self
      have hpos := List.length_pos_iff.mpr hne
      have hword := length_leBytes 2 addr.length
      have hmod : addr.length % 256 ^ 2 = addr.length := Nat.mod_eq_of_lt (by omega)
      have hstop : (2 + addr.length) % 2 ^ 16 = 2 + addr.length := Nat.mod_eq_of_lt (by omega)
      have hroom :
          ¬ (whole (encodeServers (addr :: addrs) ++ (leBytes 2 0 ++ rest))).len < room := by
        simp only [len_whole, encodeServers_cons, List.length_append, length_leBytes]
        omega
      have hlen := uint_zero_whole 2 addr.length
        (addr ++ (encodeServers addrs ++ (leBytes 2 0 ++ rest)))
      rw [← List.append_assoc] at hlen
      rw [unmarshalServers, if_neg hroom, encodeServers_cons,
        List.append_assoc _ _ (leBytes 2 0 ++ rest), hlen, Call.ok_bind, hmod, if_neg (by omega)]
      dsimp only
      rw [hstop, sub_whole _ addr _ hword rfl, Call.ok_bind,
        skip_whole _ _ (by rw [List.length_append, hword]), Call.ok_bind,
        unmarshalServers_eq err hrest (Nat.lt_of_succ_lt_succ hfuel)
          fun a ha => hshort a (List.mem_cons_of_mem _ ha)]
      rfl

theorem length_le_length_encodeServers : ∀ addrs : List Bytes,
    addrs.length ≤ (encodeServers addrs).length
  | [] => Nat.zero_le 0
  | addr :: addrs => by
      have ih := length_le_length_encodeServers addrs
      simp only [encodeServers_cons, List.length_cons, List.length_append, length_leBytes]
      omega

/-- What fits is short. -/
theorem Fits.length_lt {reserve room : ℕ} : ∀ {addrs : List Bytes}, Fits reserve room addrs →
    ∀ addr ∈ addrs, addr.length + reserve < room := by
  intro addrs
  induction addrs generalizing room with
  | nil => exact fun _ addr haddr => absurd haddr List.not_mem_nil
  | cons a addrs ih =>
    intro h addr haddr
    rcases List.mem_cons.mp haddr with rfl | haddr
    · exact h.1
    · have := ih h.2 addr haddr
      omega

/-- **What is read of a layout**: the chunks, the added servers, and no dead server at all. -/
theorem amAliveUnMarshal_eq {chunks : List KnownChunk} {added : List Bytes} {rest : Bytes}
    (hcount : chunks.length < 2 ^ 16)
    (hshort : ∀ addr ∈ added, addr ≠ [] ∧ addr.length + 2 < 2 ^ 16) (hrest : 2 ≤ rest.length) :
    amAliveUnMarshal (whole (leBytes 2 chunks.length
        ++ (chunks.flatMap KnownChunk.encode ++ (encodeServers added ++ (leBytes 2 0 ++ rest)))))
      = .ok (.ok ⟨chunks.map KnownChunk.read, added, []⟩) := by
  have hmod : chunks.length % 256 ^ 2 = chunks.length := Nat.mod_eq_of_lt hcount
  have hend := length_leBytes 2 0
  have hroom : 4 ≤ (encodeServers added ++ (leBytes 2 0 ++ rest)).length := by
    simp only [List.length_append]
    omega
  have hfuel : added.length < (encodeServers added ++ (leBytes 2 0 ++ rest)).length + 1 := by
    have := length_le_length_encodeServers added
    simp only [List.length_append]
    omega
  -- the end of the added servers is still there, and is read as that of the dead ones
  have hdead : unmarshalServers 2 .error3 ((leBytes 2 0 ++ rest).length + 1)
      (whole (leBytes 2 0 ++ rest)) = .ok (.ok ([], whole (leBytes 2 0 ++ rest))) :=
    unmarshalServers_eq .error3 (Nat.le_add_left ..) (Nat.succ_pos _)
      fun _ h => absurd h List.not_mem_nil
  rw [amAliveUnMarshal, uint_zero_whole, Call.ok_bind, hmod, skip_whole _ _ (length_leBytes ..),
    Call.ok_bind, unmarshalChunks_eq hroom, Call.ok_bind]
  dsimp only
  rw [len_whole, unmarshalServers_eq .error2 (by omega) hfuel hshort, Call.ok_bind]
  dsimp only
  rw [len_whole, hdead]
  rfl

namespace AmAlive

variable {aa : AmAlive}

/-- **What comes back of a heartbeat.** -/
theorem unmarshal_marshal_eq (hcount : aa.knownChunks.length ≤ 116)
    (hadded : ∀ addr ∈ aa.recentlyAddedServers, addr ≠ []) :
    ∃ msg, aa.marshal = .ok msg ∧ amAliveUnMarshal (whole msg)
      = .ok (.ok ⟨aa.knownChunks.map KnownChunk.read, aa.sentAdded, []⟩) := by
  have hfit := isLongestFit_fitting 64 aa.addedRoom aa.recentlyAddedServers
  have hshort : ∀ addr ∈ aa.sentAdded, addr ≠ [] ∧ addr.length + 2 < 2 ^ 16 := fun addr haddr => by
    have hlt := hfit.fits.length_lt addr haddr
    have hroom : aa.addedRoom ≤ 1400 := Nat.sub_le ..
    exact ⟨hadded addr (hfit.initial.subset haddr), by omega⟩
  obtain ⟨zeros, hzeros⟩ := Nat.exists_eq_add_of_le (length_frame_le hcount).2.2
  refine ⟨_, marshal_eq hcount, ?_⟩
  rw [hzeros, Mem.read_add, Mem.read_write_same, Nat.zero_add, frame, front]
  simp only [List.append_assoc]
  refine amAliveUnMarshal_eq (by omega) hshort ?_
  simp only [List.length_append, length_leBytes]
  omega

/-- **The round trip of chunks and added servers.**  A heartbeat of up to 116 chunks with IDs in 32
bits comes back with its chunks, and with the longest prefix of its added servers that fits. -/
theorem unmarshal_marshal (hcount : aa.knownChunks.length ≤ 116)
    (hids : ∀ c ∈ aa.knownChunks, 0 ≤ c.id ∧ c.id < 2 ^ 32)
    (hadded : ∀ addr ∈ aa.recentlyAddedServers, addr ≠ []) :
    ∃ msg aa', aa.marshal = .ok msg ∧ amAliveUnMarshal (.whole msg) = .ok (.ok aa')
      ∧ aa'.knownChunks = aa.knownChunks
      ∧ IsLongestFit 64 (maxHeartbeatSize - (2 + 12 * aa.knownChunks.length))
        aa.recentlyAddedServers aa'.recentlyAddedServers := by
  obtain ⟨msg, hmsg, hread⟩ := unmarshal_marshal_eq hcount hadded
  refine ⟨msg, _, hmsg, hread, ?_, isLongestFit_fitting 64 _ _⟩
  refine List.map_congr_left (fun c hc => ?_) |>.trans (List.map_id _)
  obtain ⟨h0, hlt⟩ := hids c hc
  exact KnownChunk.ext (Int.emod_eq_of_lt h0 hlt) rfl

/-- Two chunks and two added servers. -/
theorem unmarshal_marshal_two : ∃ msg aa',
    (AmAlive.mk [⟨0, 7⟩, ⟨2 ^ 32 - 1, 9⟩] [[97, 58, 49], [98, 58, 50]] [[99]]).marshal = .ok msg
    ∧ amAliveUnMarshal (.whole msg) = .ok (.ok aa') ∧ aa'.knownChunks = [⟨0, 7⟩, ⟨2 ^ 32 - 1, 9⟩]
    ∧ IsLongestFit 64 1374 [[97, 58, 49], [98, 58, 50]] aa'.recentlyAddedServers :=
  unmarshal_marshal (by decide) (by decide) (by decide)

/-- **No dead server comes back.**  The dead servers that are read are the longest prefix that fits
exactly if that is empty: if no server is dead, or the address of the first one does not fit. -/
theorem unmarshal_marshal_dead_iff (hcount : aa.knownChunks.length ≤ 116)
    (hadded : ∀ addr ∈ aa.recentlyAddedServers, addr ≠ []) :
    ∃ msg aa', aa.marshal = .ok msg ∧ amAliveUnMarshal (.whole msg) = .ok (.ok aa')
      ∧ aa'.recentlyDeadServers = []
      ∧ (IsLongestFit 4 aa.deadRoom aa.recentlyDeadServers aa'.recentlyDeadServers
        ↔ ∀ addr, aa.recentlyDeadServers.head? = some addr → aa.deadRoom ≤ addr.length + 4) := by
  obtain ⟨msg, hmsg, hread⟩ := unmarshal_marshal_eq hcount hadded
  refine ⟨msg, _, hmsg, hread, rfl, ?_⟩
  have hfit := isLongestFit_fitting 4 aa.deadRoom aa.recentlyDeadServers
  have hnil : fitting 4 aa.deadRoom aa.recentlyDeadServers = []
      ↔ ∀ addr, aa.recentlyDeadServers.head? = some addr → aa.deadRoom ≤ addr.length + 4 := by
    cases aa.recentlyDeadServers with
    | nil => simp [fitting]
    | cons addr addrs => simp [fitting]
  rw [← hnil]
  exact ⟨fun h => hfit.unique h, fun h => h ▸ hfit⟩

/-- A heartbeat with as many chunks as there is room for, and a dead server. -/
def crowdedAmAlive : AmAlive :=
  ⟨(List.range 116).map fun (cid : ℕ) => ⟨cid, 7⟩, [], [[98, 58, 49]]⟩

/-- The address of the dead server does not fit behind the chunks. -/
theorem unmarshal_marshal_dead_iff_crowded : ∃ msg aa', crowdedAmAlive.marshal = .ok msg
    ∧ amAliveUnMarshal (.whole msg) = .ok (.ok aa') ∧ crowdedAmAlive.deadRoom < 3 + 4
    ∧ IsLongestFit 4 crowdedAmAlive.deadRoom [[98, 58, 49]] aa'.recentlyDeadServers := by
  have hroom : crowdedAmAlive.deadRoom < 3 + 4 := by decide +kernel
  obtain ⟨msg, aa', hmsg, hread, -, hiff⟩ :=
    @unmarshal_marshal_dead_iff crowdedAmAlive (by decide) (by decide)
  refine ⟨msg, aa', hmsg, hread, hroom, hiff.mpr fun addr haddr => ?_⟩
  cases haddr
  exact hroom.le

/-- One dead server is sent, and none comes back. -/
theorem unmarshal_marshal_dead_lost : ∃ msg aa', (AmAlive.mk [] [] [[98, 58, 49]]).marshal = .ok msg
    ∧ amAliveUnMarshal (.whole msg) = .ok (.ok aa') ∧ aa'.recentlyDeadServers = []
    ∧ IsLongestFit 4 (AmAlive.mk [] [] [[98, 58, 49]]).deadRoom [[98, 58, 49]] [[98, 58, 49]] := by
  obtain ⟨msg, hmsg, hread⟩ :=
    @unmarshal_marshal_eq ⟨[], [], [[98, 58, 49]]⟩ (by decide) (by decide)
  exact ⟨msg, _, hmsg, hread, rfl, isLongestFit_fitting 4 1396 [[98, 58, 49]]⟩

end AmAlive

end Treeless
