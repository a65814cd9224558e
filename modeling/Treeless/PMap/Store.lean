import Treeless.Hashing

/-!
# PMap/Store — the append-only record store

A store is a mapping of `size` bytes, `length` of them in use.  A pair is appended as

    key length ‖ value length ‖ key ‖ value ‖ key length + value length

(three little-endian 32-bit words around the two byte strings) and is never moved or freed.  A slice
of the mapping aliases it: reslicing reaches up to the end of the mapping, not of the slice.
-/

namespace Treeless

/-- The errors the primitives return. -/
inductive Error
  | setValueLen
  | casValueLen
  | hashMapLimit
  | casEmptyPair
  | casTimestamp
  | casHash
  | storeLimit
  deriving DecidableEq, Repr

/-- The text of an error. -/
def Error.text : Error → String
  | setValueLen => "Error: message value len < 8"
  | casValueLen => "Error: CAS value len < 16"
  | hashMapLimit => "HashMap size limit reached"
  | casEmptyPair => "CAS failed: empty pair: non-zero timestamp"
  | casTimestamp => "CAS failed: timestamp mismatch"
  | casHash => "CAS failed: hash mismatch"
  | storeLimit => "store size limit reached: denied put operation"

/-- The record store. -/
@[ext] structure Store where
  /-- The number of bytes deleted. -/
  deleted : ℕ
  /-- The number of bytes in use: the address of the next record. -/
  length : ℕ
  /-- The number of bytes mapped. -/
  size : ℕ
  /-- The mapped bytes; only those below `size` exist. -/
  file : Mem

/-- A slice of the mapping. -/
structure Slice where
  off : ℕ
  len : ℕ

def headerKeyOffset : ℕ := 0
def headerValueOffset : ℕ := 4
def headerSize : ℕ := 8

/-- A store over a zeroed mapping of `size` bytes. -/
def newStore (size : ℕ) : Store := ⟨0, 0, size, fun _ => 0⟩

namespace Store

variable (st : Store)

/-- `st.file[lo:hi]`, in range. -/
def sliceOf (lo hi : ℕ) : Call Slice :=
  if lo ≤ hi ∧ hi ≤ st.size then .ok ⟨lo, hi - lo⟩ else .error .bounds

/-- The bytes a slice shows. -/
def view (s : Slice) : Bytes := st.file.read s.off s.len

/-- `s[:8]`, which may reach past the slice, up to the end of the mapping. -/
def first8 (s : Slice) : Call Bytes := st.view <$> st.sliceOf s.off (s.off + 8)

/-- The little-endian 32-bit word at `off`. -/
def uint32 (off : ℕ) : Call ℕ := (fun s => leNat (st.view s)) <$> st.sliceOf off (off + 4)

/-- The store with the bytes `bs` written at `off`. -/
def poke (off : ℕ) (bs : Bytes) : Store := { st with file := st.file.write off bs }

/-- Writes `x`, cut to 32 bits, at `off`. -/
def putUint32 (off x : ℕ) : Call Store := do
  let s ← st.sliceOf off (off + 4)
  return st.poke s.off (leBytes 4 x)

/-- `copy(s, bs)`. -/
def copy (s : Slice) (bs : Bytes) : Store := st.poke s.off (bs.take s.len)

def keyLen (index : ℕ) : Call ℕ := st.uint32 (index + headerKeyOffset)

def valLen (index : ℕ) : Call ℕ := st.uint32 (index + headerValueOffset)

/-- The sum of the two lengths, as a 32-bit word. -/
def totalLen (index : ℕ) : Call ℕ := do
  let k ← st.keyLen index
  let v ← st.valLen index
  return (k + v) % 2 ^ 32

def setKeyLen (index x : ℕ) : Call Store := st.putUint32 index x

def setValLen (index x : ℕ) : Call Store := st.putUint32 (index + headerValueOffset) x

/-- The slice of the key of the record at `index`. -/
def keySlice (index : ℕ) : Call Slice := do
  let k ← st.keyLen index
  st.sliceOf (index + headerSize) (index + headerSize + k)

/-- The slice of the value of the record at `index`. -/
def valSlice (index : ℕ) : Call Slice := do
  let k ← st.keyLen index
  let t ← st.totalLen index
  st.sliceOf (index + headerSize + k) (index + headerSize + t)

/-- The key of the record at `index`. -/
def key (index : ℕ) : Call Bytes := st.view <$> st.keySlice index

/-- The value of the record at `index`. -/
def val (index : ℕ) : Call Bytes := st.view <$> st.valSlice index

/-- Appends a pair, unless the store is too full for it; returns the address as a 32-bit word. -/
def put (key val : Bytes) : Call (Except Error (UInt32 × Store)) :=
  let size := 4 + 4 + 4 + key.length + val.length
  if st.length + size ≥ st.size then .ok (.error .storeLimit)
  else do
    let index := st.length
    let st := { st with length := st.length + size }
    let st ← st.setKeyLen index key.length
    let st ← st.setValLen index val.length
    let k ← st.keySlice index
    let st := st.copy k key
    let v ← st.valSlice index
    let st := st.copy v val
    let st ← st.putUint32 (index + 8 + key.length + val.length) (key.length + val.length)
    return .ok (UInt32.ofNat index, st)

end Store

end Treeless
