import Treeless.PMap.Store
import Treeless.Machinery.Probe

/-!
# PMap/HashMap — the bucket array of the index

A bucket is two 32-bit words, a hash and a store address; hash word `0` marks a bucket never used
and `1` one whose pair was deleted.  The array doubles (`expand`) when it is seven tenths full,
counting deleted buckets, which are dropped on the way.
-/

namespace Treeless

/-- The bucket array and its meta-data. -/
structure HashMap where
  sizeLimit : ℕ
  /-- The number of buckets, a power of two. -/
  size : ℕ
  sizeMask : ℕ
  sizelog2 : ℕ
  numKeysToExpand : ℕ
  /-- The number of buckets in use, deleted ones included. -/
  numStoredKeys : ℕ
  /-- Two words for each bucket. -/
  mem : ℕ → UInt32

def defaultHashMapInitialLog2Size : ℕ := 16
def defaultHashMapSizeLimit : ℕ := 1024 * 1024 * 64

namespace HashMap

variable (m : HashMap)

/-- The two words of a bucket. -/
def getHash (index : ℕ) : UInt32 := m.mem (2 * index)

def getStoreIndex (index : ℕ) : UInt32 := m.mem (2 * index + 1)

def setHash (index : ℕ) (hash : UInt32) : HashMap :=
  { m with mem := fun w => if w = 2 * index then hash else m.mem w }

def setStoreIndex (index : ℕ) (storeIndex : UInt32) : HashMap :=
  { m with mem := fun w => if w = 2 * index + 1 then storeIndex else m.mem w }

/-- Points a bucket at a store address. -/
def point (index : ℕ) (hash storeIndex : UInt32) : HashMap :=
  (m.setHash index hash).setStoreIndex index storeIndex

/-- Points an empty bucket at a store address. -/
def fill (index : ℕ) (hash storeIndex : UInt32) : HashMap :=
  { m.point index hash storeIndex with numStoredKeys := m.numStoredKeys + 1 }

/-- Sets the meta-data of an array of `2 ^ log2Size` buckets; it is full at seven tenths. -/
def setSize (log2Size : ℕ) : HashMap :=
  { m with
    sizelog2 := log2Size
    size := 1 <<< log2Size
    sizeMask := (List.range log2Size).foldl (fun mask i => mask ||| 1 <<< i) 0
    numKeysToExpand := (1 <<< log2Size) * 7 / 10 }

def alloc : HashMap := { m.setSize m.sizelog2 with mem := fun _ => 0 }

end HashMap

/-- An array of empty buckets. -/
def newHashMap (initialLog2Size sizeLimit : ℕ) : HashMap :=
  HashMap.alloc ⟨sizeLimit, 0, 0, initialLog2Size, 0, 0, fun _ => 0⟩

namespace HashMap

variable (m : HashMap)

/-- Puts a hash word and a store address into the first empty bucket from `index` on. -/
def place (h storeIndex : UInt32) : ℕ → ℕ → Call HashMap
  | 0, _ => .error .endless
  | fuel + 1, index =>
    if m.getHash index = emptyBucket then .ok (m.fill index h storeIndex)
    else place h storeIndex fuel ((index + 1) &&& m.sizeMask)

/-- One turn of the copying loop: a bucket in use, and not deleted, is put into the new array. -/
def rehash (newHM : HashMap) (i : ℕ) : Call HashMap :=
  let h := m.getHash i
  if h > deletedBucket then
    newHM.place h (m.getStoreIndex i) newHM.size (h.toNat &&& newHM.sizeMask)
  else .ok newHM

/-- The array with twice the buckets, unless that is past the limit. -/
def expand : Call (Except Error HashMap) :=
  if m.size * 2 > m.sizeLimit then .ok (.error .hashMapLimit)
  else Except.ok <$> (List.range m.size).foldlM m.rehash (newHashMap (m.sizelog2 + 1) m.sizeLimit)

/-- The check for available space every insertion starts with. -/
def checkSpace : Call (Except Error HashMap) :=
  if m.numStoredKeys ≥ m.numKeysToExpand then m.expand else .ok (.ok m)

end HashMap

end Treeless
