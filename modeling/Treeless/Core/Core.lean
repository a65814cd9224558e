import Treeless.Core.Defrag
import Mathlib.Data.List.Sort
import Mathlib.Data.String.Basic

/-!
# Core/Core — the chunks of a server, and the directory that keeps them

A core holds one `PMap` for each chunk that is present.  The `PMap` of a chunk is stored in the file

    dbpath/chunks/<chunk>_rev<revision>

The revision counts the defragmentations of the chunk and lives in memory; what a later process
finds is the directory (`World`).  Files are mapped and shared: the bytes a `PMap` writes are the
bytes of its file, while its file has a name.
-/

namespace Treeless

/-- The flags of a chunk. -/
structure Flags where
  present : Bool
  «protected» : Bool
  deriving DecidableEq, Repr

namespace Flags

/-- A chunk that is not here. -/
def absent : Flags := ⟨false, false⟩

/-- What `ChunkSetNoPresent` does to the flags of a chunk that is present. -/
def setNoPresent (f : Flags) : Flags := if f.present then absent else f

/-- What `ChunkSetProtected` does to the flags; `none` is its error. -/
def setProtected (f : Flags) : Option Flags :=
  if f.present then some { f with «protected» := true } else none

end Flags

/-- A chunk of a core. -/
structure MetaChunk extends Flags where
  pm : Option PMap
  revision : ℕ

/-- The errors of the core. -/
inductive CoreError
  | chunkNotPresent
  | chunkNotSynced
  | notPresent
  | pmap (e : Error)
  deriving DecidableEq, Repr

/-- The text of an error. -/
def CoreError.text : CoreError → String
  | chunkNotPresent => "ChunkNotPresent"
  | chunkNotSynced => "ChunkNotSynced"
  | notPresent => "Not present"
  | pmap e => e.text

/-- The request is a `CAS`. -/
def Op.isCas : Op → Bool
  | .cas _ _ => true
  | _ => false

structure Core where
  dbpath : String
  chunkSize : ℕ
  knownChunks : ℤ
  chunks : List MetaChunk

namespace Core

/-- A core of `numChunks` chunks, none of them present. -/
def new (dbpath : String) (chunkSize numChunks : ℕ) : Core :=
  ⟨dbpath, chunkSize, 0, List.replicate numChunks ⟨.absent, none, 0⟩⟩

variable (c : Core)

/-- The directory of the chunks. -/
def chunksDir : String := c.dbpath ++ "/chunks/"

/-- What the names of the files of a chunk begin with. -/
def nameStart (chunkID : ℕ) : String := toString chunkID ++ "_rev"

/-- The name of the file of a revision of a chunk. -/
def chunkName (chunkID revision : ℕ) : String := nameStart chunkID ++ toString revision

/-- The path of the file of a revision of a chunk; there is none for a core in memory. -/
def chunkPath (chunkID revision : ℕ) : String :=
  if c.dbpath = "" then "" else c.chunksDir ++ chunkName chunkID revision

/-- The chunk of a key. -/
def chunkIndex (key : Bytes) : ℕ := getChunkID key c.chunks.length

/-- `c.chunks[cid]`, in range. -/
def chunk (cid : ℕ) : Call MetaChunk :=
  match c.chunks[cid]? with
  | some chunk => .ok chunk
  | none => .error .bounds

/-- A pointer that is not `nil`. -/
def deref : Option PMap → Call PMap
  | some pm => .ok pm
  | none => .error .panic

theorem deref_eq {pm : Option PMap} {pm' : PMap} (h : deref pm = .ok pm') : pm = some pm' := by
  cases pm with
  | none => cases h
  | some pm => rw [Except.ok.inj h]

/-- Replaces a chunk. -/
def setChunk (cid : ℕ) (chunk : MetaChunk) : Core := { c with chunks := c.chunks.set cid chunk }

/-- What `f` shows of each chunk. -/
def view {α : Type} (f : MetaChunk → α) (cid : ℕ) : Option α := c.chunks[cid]?.map f

variable {c}

theorem view_of_chunk {α : Type} {f : MetaChunk → α} {cid : ℕ} {chunk : MetaChunk}
    (h : c.chunk cid = .ok chunk) : c.view f cid = some (f chunk) := by
  rw [Core.chunk] at h
  rw [view]
  split at h
  · next hget =>
    rw [hget, ← Except.ok.inj h]
    rfl
  · cases h

theorem view_setChunk {α : Type} (f : MetaChunk → α) {cid : ℕ} {chunk₀ : MetaChunk}
    (h : c.chunk cid = .ok chunk₀) (chunk : MetaChunk) :
    (c.setChunk cid chunk).view f = Function.update (c.view f) cid (some (f chunk)) := by
  have hlt : cid < c.chunks.length := by
    rw [Core.chunk] at h
    split at h
    · next hget => exact (List.getElem?_eq_some_iff.mp hget).1
    · cases h
  funext i
  rw [view, setChunk, List.getElem?_set]
  by_cases hi : cid = i
  · subst hi
    rw [if_pos rfl, if_pos hlt, Function.update_self]
    rfl
  · rw [if_neg hi, Function.update_of_ne (Ne.symm hi)]
    rfl

theorem chunk_setChunk {cid : ℕ} {chunk₀ : MetaChunk} (h : c.chunk cid = .ok chunk₀)
    (chunk : MetaChunk) : (c.setChunk cid chunk).chunk cid = .ok chunk := by
  have hview := congrFun (view_setChunk id h chunk) cid
  rw [Function.update_self, view, Option.map_id] at hview
  replace hview : (c.setChunk cid chunk).chunks[cid]? = some chunk := hview
  rw [Core.chunk, hview]

variable (c)

/-- The flags of each chunk. -/
def flags : ℕ → Option Flags := c.view MetaChunk.toFlags

/-! ## Primitives -/

/-- The value of a key. -/
def get (key : Bytes) : Call (Except CoreError (Option Bytes)) := do
  let chunk ← c.chunk (c.chunkIndex key)
  if chunk.present then
    let pm ← deref chunk.pm
    .ok <$> pm.get (fnv1a64 key).toUInt32 key
  else return .error .chunkNotPresent

/-- `Set`, `CAS` and `Delete`: the request goes to the `PMap` of the chunk of its key, a `CAS` only
if the chunk is synced. -/
def request (isSynced : ℕ → Bool) (op : Op) : Call (Option CoreError × Core) := do
  let index := c.chunkIndex op.key
  let chunk ← c.chunk index
  if chunk.present then
    if op.isCas && !isSynced index then return (some .chunkNotSynced, c)
    else
      let pm ← deref chunk.pm
      let (e, pm) ← pm.apply fnv1a64 op
      return (e.map .pmap, c.setChunk index { chunk with pm := some pm })
  else return (some .chunkNotPresent, c)

/-- **What a request does**: nothing, or what the `PMap` of its chunk does. -/
theorem request_cases {c : Core} {isSynced : ℕ → Bool} {op : Op} {r : Option CoreError × Core}
    (h : c.request isSynced op = .ok r) : r.2 = c ∨ ∃ chunk pm e pm',
      c.chunk (c.chunkIndex op.key) = .ok chunk ∧ chunk.pm = some pm
        ∧ pm.apply fnv1a64 op = .ok (e, pm')
        ∧ r.2 = c.setChunk (c.chunkIndex op.key) { chunk with pm := some pm' } := by
  rw [request] at h
  obtain ⟨chunk, hchunk, h⟩ := Call.bind_eq_ok.mp h
  split at h
  · split at h
    · cases h
      exact Or.inl rfl
    · obtain ⟨pm, hpm, h⟩ := Call.bind_eq_ok.mp h
      obtain ⟨⟨e, pm'⟩, happly, h⟩ := Call.bind_eq_ok.mp h
      cases h
      exact Or.inr ⟨chunk, pm, e, pm', hchunk, deref_eq hpm, happly, rfl⟩
  · cases h
    exact Or.inl rfl

/-- A request that reaches the `PMap` of its chunk. -/
theorem request_eq {c : Core} (isSynced : ℕ → Bool) (op : Op) {chunk : MetaChunk} {pm pm' : PMap}
    {e : Option Error} (hchunk : c.chunk (c.chunkIndex op.key) = .ok chunk) (hpres : chunk.present)
    (hsync : (op.isCas && !isSynced (c.chunkIndex op.key)) = false) (hpm : chunk.pm = some pm)
    (happly : pm.apply fnv1a64 op = .ok (e, pm')) : c.request isSynced op
      = .ok (e.map .pmap, c.setChunk (c.chunkIndex op.key) { chunk with pm := some pm' }) := by
  rw [request]
  dsimp only
  rw [hchunk, Call.ok_bind, if_pos hpres, hsync, if_neg Bool.false_ne_true, hpm, deref,
    Call.ok_bind, happly]
  rfl

/-- Protects a chunk. -/
def chunkSetProtected (cid : ℕ) : Call (Option CoreError × Core) := do
  let chunk ← c.chunk cid
  match chunk.toFlags.setProtected with
  | none => return (some .notPresent, c)
  | some flags => return (none, c.setChunk cid { chunk with toFlags := flags })

/-- The number of bytes used in the store of a chunk; `math.MaxUint64` if the chunk isn't
present. -/
def lengthOfChunk (cid : ℕ) : Call UInt64 := do
  let chunk ← c.chunk cid
  if chunk.present then
    let pm ← deref chunk.pm
    return UInt64.ofNat pm.st.length
  else return UInt64.ofNat (2 ^ 64 - 1)

end Core

/-! ## The directory -/

/-- A core and the files of its directory, by name. -/
structure World where
  core : Core
  files : List (String × File)

namespace World

variable (w : World)

/-- The bytes of a file: those of the `PMap` that maps it, if there is one. -/
def bytesOf (entry : String × File) : File :=
  (w.core.chunks.findSome? fun chunk => chunk.pm.bind fun pm =>
    if pm.path = w.core.chunksDir ++ entry.1 then some pm.close else none).getD entry.2

/-- The file of a path. -/
def fileAt (path : String) : Call File :=
  match w.files.find? fun entry => decide (w.core.chunksDir ++ entry.1 = path) with
  | some entry => .ok (w.bytesOf entry)
  | none => .error .panic

/-- The names in the directory, in order. -/
def readDir : List String := (w.files.map Prod.fst).insertionSort (· ≤ ·)

/-- The path of a file of the chunk; `""` if there is none. -/
def findChunk (chunkID : ℕ) : String :=
  if w.core.dbpath = "" then ""
  else match w.readDir.find? fun name =>
      (Core.nameStart chunkID).toList.isPrefixOf name.toList with
    | some name => w.core.chunksDir ++ name
    | none => ""

/-- The directory after `pmap.New` of a revision of a chunk: its file is there, and it is zeroed. -/
def create (chunkID revision : ℕ) : List (String × File) :=
  if w.core.dbpath = "" then w.files
  else (Core.chunkName chunkID revision, ⟨w.core.chunkSize, fun _ => 0⟩)
    :: w.files.filter fun entry => decide (entry.1 ≠ Core.chunkName chunkID revision)

/-- The directory without the file of a path. -/
def remove (path : String) (files : List (String × File)) : List (String × File) :=
  files.filter fun entry => decide (w.core.chunksDir ++ entry.1 ≠ path)

/-- Opens the file found for a chunk. -/
def openChunk (cid : ℕ) : Call World := do
  let path := w.findChunk cid
  if path = "" then return w
  else
    let chunk ← w.core.chunk cid
    let pm ← PMap.open path (← w.fileAt path)
    let chunk := { chunk with pm := some pm, present := true }
    return { w with core := w.core.setChunk cid chunk }

/-- Opens what an earlier process left: the chunks in turn. -/
def openAll : Call World := (List.range w.core.chunks.length).foldlM openChunk w

/-- Makes a chunk present, with an empty `PMap` in the file of revision 0. -/
def chunkSetPresent (cid : ℕ) : Call World := do
  let chunk ← w.core.chunk cid
  if chunk.present then return w
  else
    let pm := PMap.new (w.core.chunkPath cid 0) w.core.chunkSize
    let core := w.core.setChunk cid { chunk with pm := some pm, present := true }
    return ⟨{ core with knownChunks := core.knownChunks + 1 }, w.create cid 0⟩

/-- Removes a chunk with its file. -/
def chunkSetNoPresent (cid : ℕ) : Call World := do
  let chunk ← w.core.chunk cid
  if chunk.present then
    let pm ← Core.deref chunk.pm
    let core := w.core.setChunk cid { chunk with toFlags := chunk.setNoPresent, pm := none }
    return ⟨{ core with knownChunks := core.knownChunks - 1 }, w.remove pm.path w.files⟩
  else return w

/-- What an old `PMap` shows after `pmap.New` of `path`: zeros, if that is its own file. -/
def truncated (old : PMap) (path : String) : PMap :=
  if path ≠ "" ∧ old.path = path then { old with st := { old.st with file := fun _ => 0 } } else old

/-- Defragments a chunk: copies its pairs to the file of the next revision, and removes the file it
was stored in. -/
def defrag (cid : ℕ) : Call World := do
  let chunk ← w.core.chunk cid
  let old ← Core.deref chunk.pm
  let revision := chunk.revision + 1
  let path := w.core.chunkPath cid revision
  let pm ← (truncated old path).defragment path w.core.chunkSize
  let core := w.core.setChunk cid { chunk with pm := some pm, revision }
  return ⟨core, w.remove old.path (w.create cid revision)⟩

/-- The end of the process, by `Close` or not, and the `New` of the next one. -/
def restart : World :=
  ⟨.new w.core.dbpath w.core.chunkSize w.core.chunks.length,
    w.files.map fun entry => (entry.1, w.bytesOf entry)⟩

end World

/-- What happens to a core. -/
inductive Event
  | request (isSynced : ℕ → Bool) (op : Op)
  | openAll
  | setPresent (cid : ℕ)
  | setNoPresent (cid : ℕ)
  | setProtected (cid : ℕ)
  | defrag (cid : ℕ)
  | restart

namespace World

/-- The world after an event. -/
def step (w : World) : Event → Call World
  | .request isSynced op => do return { w with core := (← w.core.request isSynced op).2 }
  | .openAll => w.openAll
  | .setPresent cid => w.chunkSetPresent cid
  | .setNoPresent cid => w.chunkSetNoPresent cid
  | .setProtected cid => do return { w with core := (← w.core.chunkSetProtected cid).2 }
  | .defrag cid => w.defrag cid
  | .restart => .ok w.restart

/-- The event `ev` takes the world `w` to `w'`. -/
def Steps (w : World) (ev : Event) (w' : World) : Prop := w.step ev = .ok w'

end World

end Treeless
