import Treeless.PMap.HashMap
import Treeless.PMap.Checksum

/-!
# PMap/PMap — the persistent dictionary

A `PMap` is an index (`HashMap`) over a log of pairs (`Store`), with a checksum of its content.  The
four primitives and `restorePair` search the index by the same loop (`probe`): from the bucket the
hash word names, on to the next until an empty one or the key's.

A primitive returns its error, if any, together with the `PMap` it leaves behind.
-/

namespace Treeless

structure PMap where
  hm : HashMap
  st : Store
  checksum : SyncChecksum
  path : String

/-- Where a search of the index ends. -/
inductive Slot
  | empty (index : ℕ)
  | found (index : ℕ) (stIndex : UInt32)
  deriving DecidableEq, Repr

/-- A file as a mapping leaves it. -/
structure File where
  size : ℕ
  bytes : Mem

/-- The store mapped over an existing file, its length not known yet. -/
def openStore (f : File) : Store := ⟨0, 0, f.size, f.bytes⟩

namespace PMap

/-- An empty `PMap` stored in `path`, in a store of `size` bytes. -/
def new (path : String) (size : ℕ) : PMap :=
  ⟨newHashMap defaultHashMapInitialLog2Size defaultHashMapSizeLimit, newStore size, .zero, path⟩

variable (c : PMap)

/-- The search for a key of hash word `h`, by open addressing with linear probing. -/
def probe (h : UInt32) (key : Bytes) : ℕ → ℕ → Call Slot
  | 0, _ => .error .endless
  | fuel + 1, index =>
    let storedHash := c.hm.getHash index
    if storedHash = emptyBucket then .ok (.empty index)
    else if h = storedHash then do
      let stIndex := c.hm.getStoreIndex index
      let storedKey ← c.st.key stIndex.toNat
      if storedKey = key then return .found index stIndex
      else probe h key fuel ((index + 1) &&& c.hm.sizeMask)
    else probe h key fuel ((index + 1) &&& c.hm.sizeMask)

/-- The search from the bucket the hash word names.  A search that comes back to where it started
would go round forever. -/
def search (h : UInt32) (key : Bytes) : Call Slot :=
  c.probe h key c.hm.size (h.toNat &&& c.hm.sizeMask)

/-- Points a bucket at a record. -/
def pointTo (index : ℕ) (h storeIndex : UInt32) : PMap :=
  { c with hm := c.hm.point index h storeIndex }

/-- Points an empty bucket at a record. -/
def occupy (index : ℕ) (h storeIndex : UInt32) : PMap :=
  { c with hm := c.hm.fill index h storeIndex }

/-- Marks a bucket as deleted. -/
def markDeleted (index : ℕ) : PMap := { c with hm := c.hm.setHash index deletedBucket }

/-! ## Primitives -/

/-- The value of a key, or `none`. -/
def get (h32 : UInt32) (key : Bytes) : Call (Option Bytes) := do
  match ← c.search h32 key with
  | .empty _ => return none
  | .found _ stIndex => some <$> c.st.val stIndex.toNat

/-- Sets a pair if the key is absent or the stored timestamp is before the provided one. -/
def set (h64 : UInt64) (key value : Bytes) : Call (Option Error × PMap) :=
  if value.length < 8 then .ok (some .setValueLen, c)
  else do
    match ← c.hm.checkSpace with
    | .error e => return (some e, c)
    | .ok hm =>
      let c := { c with hm }
      let h := hashReMap h64.toUInt32
      let t := unixTime value
      match ← c.search h key with
      | .empty index =>
        match ← c.st.put key value with
        | .error e => return (some e, c)
        | .ok (storeIndex, st) =>
          let c := { c with st }.occupy index h storeIndex
          return (none, { c with checksum := c.checksum.sum (h64 ^^^ uint64 value) t })
      | .found index stIndex =>
        let v ← c.st.valSlice stIndex.toNat
        let oldT := unixTime (← c.st.first8 v)
        if oldT > t ∨ oldT = t then return (none, c)
        else
          match ← c.st.put key value with
          | .error e => return (some e, c)
          | .ok (storeIndex, st) =>
            let c := { c with st }
            let old ← c.st.first8 v
            let c := { c with checksum := c.checksum.sub (h64 ^^^ uint64 old) t }
            let c := c.pointTo index h storeIndex
            return (none, { c with checksum := c.checksum.sum (h64 ^^^ uint64 value) t })

/-- Sets a pair to `value[16:]` if the stored timestamp is `value[0:8]` and the stored value hashes
to `value[8:16]`; an absent key passes if either looks like an absent pair. -/
def cas (h64 : UInt64) (key value : Bytes) : Call (Option Error × PMap) :=
  if value.length < 24 then .ok (some .casValueLen, c)
  else do
    match ← c.hm.checkSpace with
    | .error e => return (some e, c)
    | .ok hm =>
      let c := { c with hm }
      let providedTime := unixTime value
      let hv := uint64 (value.drop 8)
      let t := unixTime (value.drop 16)
      let h := hashReMap h64.toUInt32
      match ← c.search h key with
      | .empty index =>
        if providedTime ≠ 0 ∧ hv ≠ fnv1a64 [] then return (some .casEmptyPair, c)
        else
          match ← c.st.put key (value.drop 16) with
          | .error e => return (some e, c)
          | .ok (storeIndex, st) =>
            let c := { c with st }.occupy index h storeIndex
            return (none, { c with checksum := c.checksum.sum (h64 ^^^ uint64 (value.drop 16)) t })
      | .found index stIndex =>
        let v ← c.st.valSlice stIndex.toNat
        let old ← c.st.first8 v
        if unixTime old ≠ providedTime then return (some .casTimestamp, c)
        else if v.len < 8 then .error .bounds
        else if hv ≠ fnv1a64 ((c.st.view v).drop 8) then return (some .casHash, c)
        else
          let c := { c with checksum := c.checksum.sub (h64 ^^^ uint64 old) t }
          match ← c.st.put key (value.drop 16) with
          | .error e => return (some e, c)
          | .ok (storeIndex, st) =>
            let c := { c with st }.pointTo index h storeIndex
            return (none, { c with checksum := c.checksum.sum (h64 ^^^ uint64 (value.drop 16)) t })

/-- Deletes a pair unless it is newer than the timestamp provided; leaves a tombstone. -/
def del (h64 : UInt64) (key value : Bytes) : Call (Option Error × PMap) := do
  let h := hashReMap h64.toUInt32
  match ← c.search h key with
  | .empty _ => return (none, c)
  | .found index stIndex =>
    let v ← c.st.valSlice stIndex.toNat
    let old ← c.st.first8 v
    if value.length < 8 then .error .bounds
    else
      let t := unixTime value
      if t < unixTime old then return (none, c)
      else
        let c := { c with st := { c.st with deleted := c.st.deleted + (12 + key.length + v.len) } }
        let c := { c with checksum := c.checksum.sub (h64 ^^^ uint64 old) t }
        let c := c.markDeleted index
        match ← c.st.put key [] with
        | .error e => return (some e, c)
        | .ok (_, st) => return (none, { c with st })

/-! ## Opening a closed file -/

/-- The file a closed `PMap` leaves behind. -/
def close : File := ⟨c.st.size, c.st.file⟩

/-- Introduces the pair of a record found in the file into the index. -/
def restorePair (key : Bytes) (value : Slice) (storeIndex : UInt32) :
    Call (Option Error × PMap) := do
  match ← c.hm.checkSpace with
  | .error e => return (some e, c)
  | .ok hm =>
    let c := { c with hm }
    let h64 := fnv1a64 key
    let h := hashReMap h64.toUInt32
    match ← c.search h key with
    | .empty index =>
      let c := c.occupy index h storeIndex
      let new ← c.st.first8 value
      return (none, { c with checksum := c.checksum.sum (h64 ^^^ uint64 new) (unixTime new) })
    | .found index stIndex =>
      let v ← c.st.valSlice stIndex.toNat
      let new ← c.st.first8 value
      let old ← c.st.first8 v
      let c := { c with checksum := c.checksum.sub (h64 ^^^ uint64 old) (unixTime new) }
      let c := { c with st := { c.st with deleted := c.st.deleted + (12 + key.length + v.len) } }
      if value.len > 0 then
        let c := c.pointTo index h storeIndex
        return (none, { c with checksum := c.checksum.sum (h64 ^^^ uint64 new) (unixTime new) })
      else return (none, c.markDeleted index)

/-- One turn of the restoring loop: the record at `index`, and the next address. -/
def restoreRecord (index : ℕ) : Call (PMap × ℕ) := do
  let key ← c.st.key index
  let val ← c.st.valSlice index
  let (_, c) ← c.restorePair key val (UInt32.ofNat index)
  let c := if val.len > 0 then c
    else { c with st := { c.st with deleted := c.st.deleted + (12 + key.length) } }
  let total ← c.st.totalLen index
  return ({ c with st := { c.st with length := index + (12 + total) } }, index + (12 + total))

/-- The restoring loop: every record up to the first key length zero. -/
def restoreLoop (c : PMap) : ℕ → ℕ → Call PMap
  | 0, _ => .error .endless
  | fuel + 1, index => do
    if (← c.st.keyLen index) ≤ 0 then return c
    else
      let (c, index) ← c.restoreRecord index
      restoreLoop c fuel index

/-- Opens the file a closed `PMap` left in `path`.  A turn of the loop moves on by at least twelve
bytes, so there are fewer turns than bytes. -/
def «open» (path : String) (f : File) : Call PMap :=
  restoreLoop ⟨newHashMap defaultHashMapInitialLog2Size defaultHashMapSizeLimit, openStore f, .zero,
    path⟩ (f.size + 1) 0

/-! ## Iteration -/

/-- Whether the record at `index` is the current pair of its key, by its timestamp. -/
def isPresent (index : ℕ) : Call Bool := do
  let key ← c.st.key index
  match ← c.get (fnv1a64 key).toUInt32 key with
  | none => return false
  | some value =>
    let storeValue ← c.st.valSlice index
    if value.length < 8 then .error .bounds
    else
      let first ← c.st.first8 storeValue
      return value.take 8 = first

/-- The pair the iteration shows at a record, if it is present. -/
def pairAt (index : ℕ) : Call (Option (Bytes × Bytes)) := do
  if ← c.isPresent index then
    let key ← c.st.key index
    let val ← c.st.val index
    return some (key, val)
  else return none

/-- The address of the record after the one at `index`. -/
def nextIndex (index : ℕ) : Call ℕ := do
  let total ← c.st.totalLen index
  return index + (12 + total)

/-- The iteration from `index` on: `foreach` is called on every present pair until it asks to
stop. -/
def iterateFrom {σ : Type} (foreach : σ → Bytes → Bytes → Call (σ × Bool)) :
    ℕ → ℕ → σ → Call σ
  | 0, _, _ => .error .endless
  | fuel + 1, index, s =>
    if index < c.st.length then do
      let (s, ok) ← match ← c.pairAt index with
        | some (key, val) => foreach s key val
        | none => .ok (s, true)
      if ok then iterateFrom foreach fuel (← c.nextIndex index) s
      else return s
    else .ok s

/-- Calls `foreach` on every present pair, in log order. -/
def iterate {σ : Type} (foreach : σ → Bytes → Bytes → Call (σ × Bool)) (s : σ) : Call σ :=
  c.iterateFrom foreach (c.st.length + 1) 0 s

/-! ## The path

No operation moves a `PMap` to another file. -/

/-- What a call returns next to its answer is stored where `c` is. -/
abbrev Stays {α : Type} (x : Call (α × PMap)) : Prop := x.Returns fun r => r.2.path = c.path

theorem stays_set (h64 : UInt64) (key value : Bytes) : c.Stays (c.set h64 key value) := by
  unfold set
  split
  · exact .ok rfl
  refine .bind fun space => ?_
  split
  · exact .ok rfl
  refine .bind fun slot => ?_
  split
  · refine .bind fun put => ?_
    split <;> exact .ok rfl
  · refine .bind fun v => .bind fun old => ?_
    dsimp only
    split
    · exact .ok rfl
    refine .bind fun put => ?_
    split
    · exact .ok rfl
    · exact .bind fun _ => .ok rfl

theorem stays_cas (h64 : UInt64) (key value : Bytes) : c.Stays (c.cas h64 key value) := by
  unfold cas
  split
  · exact .ok rfl
  refine .bind fun space => ?_
  split
  · exact .ok rfl
  refine .bind fun slot => ?_
  split
  · split
    · exact .ok rfl
    refine .bind fun put => ?_
    split <;> exact .ok rfl
  · refine .bind fun v => .bind fun old => ?_
    split
    · exact .ok rfl
    split
    · exact .fault _
    split
    · exact .ok rfl
    refine .bind fun put => ?_
    split <;> exact .ok rfl

theorem stays_del (h64 : UInt64) (key value : Bytes) : c.Stays (c.del h64 key value) := by
  unfold del
  refine .bind fun slot => ?_
  split
  · exact .ok rfl
  refine .bind fun v => .bind fun old => ?_
  split
  · exact .fault _
  dsimp only
  split
  · exact .ok rfl
  refine .bind fun put => ?_
  split <;> exact .ok rfl

theorem stays_restorePair (key : Bytes) (value : Slice) (storeIndex : UInt32) :
    c.Stays (c.restorePair key value storeIndex) := by
  unfold restorePair
  refine .bind fun space => ?_
  split
  · exact .ok rfl
  refine .bind fun slot => ?_
  split
  · exact .bind fun _ => .ok rfl
  · refine .bind fun v => .bind fun new => .bind fun old => ?_
    split <;> exact .ok rfl

theorem path_restoreRecord (index : ℕ) :
    (c.restoreRecord index).Returns fun r => r.1.path = c.path := by
  unfold restoreRecord
  refine .bind fun key => .bind fun val => (c.stays_restorePair key val _).seq fun r hr => ?_
  refine .bind fun total => .ok ?_
  split <;> exact hr

theorem path_restoreLoop : ∀ (fuel : ℕ) (c : PMap) (index : ℕ),
    (restoreLoop c fuel index).Returns fun c' => c'.path = c.path
  | 0, _, _ => .fault _
  | fuel + 1, c, index => by
      unfold restoreLoop
      refine .bind fun len => ?_
      split
      · exact .ok rfl
      · exact (c.path_restoreRecord index).seq fun r hr =>
          (path_restoreLoop fuel r.1 r.2).mono fun _ h => h.trans hr

/-- **A `PMap` is opened in the file it was opened from.** -/
theorem path_open (path : String) (f : File) : (PMap.open path f).Returns fun c => c.path = path :=
  path_restoreLoop _ _ _

/-- **The rule of iteration**: what each call of `foreach` keeps holds of the result. -/
theorem returns_iterateFrom {σ : Type} {P : σ → Prop}
    {foreach : σ → Bytes → Bytes → Call (σ × Bool)}
    (hP : ∀ s key val, P s → (foreach s key val).Returns fun r => P r.1) :
    ∀ (fuel index : ℕ) {s : σ}, P s → (c.iterateFrom foreach fuel index s).Returns P
  | 0, _, _, _ => .fault _
  | fuel + 1, index, s, hs => by
      unfold iterateFrom
      split
      · refine .bind fun pair => ?_
        have hnext : ∀ (r : σ × Bool), P r.1 → Call.Returns P
            (if r.2 = true then do
              let index ← c.nextIndex index
              c.iterateFrom foreach fuel index r.1
            else pure r.1) := fun r hr => by
          split
          · exact .bind fun _ => returns_iterateFrom hP fuel _ hr
          · exact .ok hr
        split
        · exact (hP s _ _ hs).seq hnext
        · exact hnext (s, true) hs
      · exact .ok hs

end PMap

end Treeless
