import Treeless.Machinery.Bytes

/-!
# Com/Protocol — the messages and their layout

    0:4                 message size
    4:8                 message ID
    8:12                key length
    12                  operation
    13:13+key length    key
    13+key length:size  value

`Marshal` writes the layout into a buffer that has the room (`marshal_eq`); `Unmarshal` reads it
back (`unmarshal_encode`).  `Unmarshal` checks nothing: a frame shorter than its header, or than the
key it announces, is a slice out of range (`unmarshal_eq_error`).
-/

namespace Treeless

/-- A database operation or a result. -/
abbrev Operation := UInt8

namespace Operation

def get : Operation := 1
def set : Operation := 2
def asyncSet : Operation := 3
def del : Operation := 4
def cas : Operation := 5
def addServerToGroup : Operation := 100
def getConf : Operation := 101
def getChunkInfo : Operation := 102
def protect : Operation := 103
def transfer : Operation := 104
def setBuffered : Operation := 105
def setNoDelay : Operation := 106
def defrag : Operation := 107
def forgetNode : Operation := 108
def ok : Operation := 200
def err : Operation := 201
def response : Operation := 202

end Operation

@[ext] structure Message where
  type : Operation
  id : UInt32
  key : Bytes
  value : Bytes
  deriving DecidableEq, Repr

/-- The size of a message without key and value. -/
def minimumMessageSize : ℕ := 13

namespace Message

variable (m : Message)

/-- The number of bytes of a message on the wire. -/
def size : ℕ := m.key.length + m.value.length + 13

/-- The bytes of a message on the wire. -/
def encode : Bytes :=
  leBytes 4 m.size ++ leBytes 4 m.id.toNat ++ leBytes 4 m.key.length ++ [m.type] ++ m.key ++ m.value

@[simp] theorem length_encode : m.encode.length = m.size := by
  simp only [encode, size, List.length_append, length_leBytes, List.length_singleton]
  omega

theorem minimumMessageSize_le_size : minimumMessageSize ≤ m.size := Nat.le_add_left _ _

/-- Serializes the message on the `len` bytes at `off`, if they have enough size: the size of the
message, whether it is too long, and the buffer. -/
def marshal (dest : Mem) (off len : ℕ) : ℕ × Bool × Mem :=
  let size := m.key.length + m.value.length + 13
  if size > len then (size, true, dest)
  else
    let dest := dest.write off (leBytes 4 size)
    let dest := dest.write (off + 4) (leBytes 4 m.id.toNat)
    let dest := dest.write (off + 8) (leBytes 4 m.key.length)
    let dest := dest.write (off + 12) [m.type]
    let dest := dest.write (off + 13) m.key
    let dest := dest.write (off + 13 + m.key.length) m.value
    (size, false, dest)

/-- **`Marshal` writes the layout.** -/
theorem marshal_eq (dest : Mem) (off len : ℕ) : m.marshal dest off len
    = if len < m.size then (m.size, true, dest) else (m.size, false, dest.write off m.encode) := by
  have happend : dest.write off m.encode = (((((dest.write off (leBytes 4 m.size)).write (off + 4)
      (leBytes 4 m.id.toNat)).write (off + 8) (leBytes 4 m.key.length)).write (off + 12)
      [m.type]).write (off + 13) m.key).write (off + 13 + m.key.length) m.value := by
    simp only [encode, ← Mem.write_append, List.length_append, length_leBytes,
      List.length_singleton, Nat.add_assoc, Nat.reduceAdd]
  rw [happend]
  rfl

end Message

/-- The bytes of a list of messages. -/
def wire (msgs : List Message) : Bytes := msgs.flatMap Message.encode

@[simp] theorem wire_nil : wire [] = [] := rfl

@[simp] theorem wire_cons (m : Message) (msgs : List Message) :
    wire (m :: msgs) = m.encode ++ wire msgs := List.flatMap_cons

@[simp] theorem wire_append (msgs msgs' : List Message) :
    wire (msgs ++ msgs') = wire msgs ++ wire msgs' := List.flatMap_append

/-- Reads a message from a frame.  The slices `src[4:8]` and `src[8:12]` may pass the end of a short
frame into its buffer, but `src[12]` may not. -/
def unmarshal (src : Bytes) : Call Message := do
  let id ← slice src 4 8
  let keySize ← slice src 8 12
  let type ← slice src 12 13
  let array ← slice src 13 src.length
  let key ← slice array 0 (leNat keySize)
  let value ← slice array (leNat keySize) array.length
  return ⟨type.headD 0, UInt32.ofNat (leNat id), key, value⟩

/-- The key length a frame announces. -/
def keySize (src : Bytes) : ℕ := leNat ((src.take 12).drop 8)

/-- The frame has a header, and the room for the key it announces. -/
def WellFormed (src : Bytes) : Prop :=
  minimumMessageSize ≤ src.length ∧ keySize src ≤ src.length - minimumMessageSize

instance (src : Bytes) : Decidable (WellFormed src) := inferInstanceAs (Decidable (_ ∧ _))

/-- What a well-formed frame says. -/
def Message.ofFrame (src : Bytes) : Message :=
  ⟨((src.take 13).drop 12).headD 0, UInt32.ofNat (leNat ((src.take 8).drop 4)),
    (src.drop 13).take (keySize src), (src.drop 13).drop (keySize src)⟩

/-- **`Unmarshal` fails exactly on the frames that are not well-formed.** -/
theorem unmarshal_eq (src : Bytes) : unmarshal src
    = if WellFormed src then .ok (.ofFrame src) else .error .bounds := by
  by_cases hlen : minimumMessageSize ≤ src.length
  · have hhead : 13 ≤ src.length := hlen
    have hsrc : unmarshal src = do
        let key ← slice (src.drop 13) 0 (keySize src)
        let value ← slice (src.drop 13) (keySize src) (src.drop 13).length
        return ⟨((src.take 13).drop 12).headD 0, UInt32.ofNat (leNat ((src.take 8).drop 4)),
          key, value⟩ := by
      rw [unmarshal, slice_eq (by omega) (by omega), slice_eq (by omega) (by omega),
        slice_eq (by omega) (by omega), slice_eq hhead le_rfl, List.take_length]
      rfl
    rw [hsrc]
    by_cases hkey : keySize src ≤ src.length - minimumMessageSize
    · have hkey' : keySize src ≤ (src.drop 13).length := by rwa [List.length_drop]
      rw [if_pos ⟨hlen, hkey⟩, slice_eq (Nat.zero_le _) hkey', slice_eq hkey' le_rfl,
        List.take_length]
      rfl
    · have hkey' : ¬ (0 ≤ keySize src ∧ keySize src ≤ (src.drop 13).length) := by
        rw [List.length_drop]
        exact fun h => hkey h.2
      rw [if_neg fun h => hkey h.2, slice, if_neg hkey']
      rfl
  · have hshort : src.length < 13 := not_le.mp hlen
    rw [if_neg fun h => hlen h.1, unmarshal]
    have hfault : slice src 12 13 = .error .bounds := if_neg (by omega)
    rw [hfault]
    rw [slice, slice]
    split
    · split <;> rfl
    · rfl

variable {m : Message}

/-- A field of a layout, by where it starts and ends. -/
theorem field_eq (xs ys zs : Bytes) {bs : Bytes} {lo hi : ℕ} (h : bs = xs ++ ys ++ zs)
    (hlo : xs.length = lo) (hhi : lo + ys.length = hi) : (bs.take hi).drop lo = ys := by
  subst h
  rw [List.take_left' (by rw [List.length_append, hlo, hhi]), List.drop_left' hlo]

theorem keySize_encode (h : m.size < 2 ^ 32) : keySize m.encode = m.key.length := by
  have hkey : m.key.length < 256 ^ 4 := lt_of_le_of_lt (by rw [Message.size]; omega) h
  rw [keySize, field_eq (leBytes 4 m.size ++ leBytes 4 m.id.toNat)
    (leBytes 4 m.key.length) (m.type :: (m.key ++ m.value))
    (by simp [Message.encode]) (by simp) (by simp), leNat_leBytes_of_lt hkey]

theorem wellFormed_encode (h : m.size < 2 ^ 32) : WellFormed m.encode := by
  rw [WellFormed, keySize_encode h, Message.length_encode, Message.size, minimumMessageSize]
  omega

/-- **A message read from its own bytes is the message.** -/
theorem unmarshal_encode (h : m.size < 2 ^ 32) : unmarshal m.encode = .ok m := by
  have hid : m.id.toNat < 256 ^ 4 := m.id.toNat_lt
  have hbody : m.encode.drop 13 = m.key ++ m.value := by
    rw [Message.encode, List.append_assoc _ m.key]
    exact List.drop_left' (by simp)
  rw [unmarshal_eq, if_pos (wellFormed_encode h), Message.ofFrame, keySize_encode h, hbody,
    field_eq (leBytes 4 m.size ++ leBytes 4 m.id.toNat ++ leBytes 4 m.key.length)
      [m.type] (m.key ++ m.value) (by simp [Message.encode]) (by simp) (by simp),
    field_eq (leBytes 4 m.size) (leBytes 4 m.id.toNat)
      (leBytes 4 m.key.length ++ m.type :: (m.key ++ m.value))
      (by simp [Message.encode]) (by simp) (by simp), leNat_leBytes_of_lt hid]
  simp

end Treeless
