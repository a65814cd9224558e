import Treeless.Core.Revision
import Treeless.Machinery.Names

/-!
# Core/Crash — a process that stops in the middle of a defragmentation

While a chunk is copied from revision `n` to revision `n + 1` both files are in the directory:

    <chunk>_rev<n>        complete, and only read
    <chunk>_rev<n + 1>    empty, zeroed, then with more and more of the pairs

A process that stops there leaves both, and the next one opens the first of the chunk's files in the
order of their names.  That is the complete one unless `n + 1` has a digit more than `n`; unless the
chunk was opened from the file of a revision that is not the count of its defragmentations; and
unless there is a third file, left by another process.
-/

namespace Treeless

/-- The record is one of those the file starts with. -/
def File.Contains (f : File) (r : Record) : Prop :=
  ∃ log off, f.bytes.Holds 0 (log.flatMap Record.encode) ∧ logSize log ≤ f.size
    ∧ recordAt log off = some r

/-- A zeroed file contains no pair with a value. -/
theorem File.not_contains_zero {size : ℕ} {r : Record} (hpos : 0 < r.val.length)
    (hshort : r.key.length + r.val.length < 2 ^ 32) :
    ¬ File.Contains ⟨size, fun _ => 0⟩ r := by
  rintro ⟨log, off, hholds, hsize, hr⟩
  have hrec := Store.holds_of_recordAt hholds hr
  rw [Nat.zero_add] at hrec
  have hat : (openStore ⟨size, fun _ => 0⟩).RecordAt off r :=
    ⟨hrec, (add_size_le_of_recordAt hr).trans hsize, hshort⟩
  have hword := hat.fields.2.1
  rw [Mem.Holds, length_leBytes] at hword
  have hlen : leNat (leBytes 4 r.val.length) = r.val.length := leNat_leBytes_of_lt (by omega)
  rw [← hword] at hlen
  exact hpos.ne hlen

namespace PMap

/-! ## The file of a defragmentation that is under way -/

/-- The defragmentation of `old` has read it up to `index` and made `new`. -/
inductive Copying (old : PMap) (path : String) (size : ℕ) : ℕ → PMap → Prop
  | start : Copying old path size 0 (PMap.new path size)
  | skip {index index' : ℕ} {new : PMap} (h : Copying old path size index new)
      (hlt : index < old.st.length) (hpair : old.pairAt index = .ok none)
      (hnext : old.nextIndex index = .ok index') : Copying old path size index' new
  | copy {index index' : ℕ} {new new' : PMap} {key val : Bytes}
      (h : Copying old path size index new) (hlt : index < old.st.length)
      (hpair : old.pairAt index = .ok (some (key, val)))
      (hcopy : copyPair new key val = .ok (new', true))
      (hnext : old.nextIndex index = .ok index') : Copying old path size index' new'

/-- What the new file may be when the process stops: it is created empty; then it has every byte
from before the pair that is being copied, or from after it. -/
inductive Written (old : PMap) (path : String) (size : ℕ) : File → Prop
  | created (bytes : Mem) : Written old path size ⟨0, bytes⟩
  | copied {index : ℕ} {new : PMap} (h : Copying old path size index new) :
      Written old path size new.close
  | copying {index : ℕ} {new new' : PMap} {key val : Bytes} (h : Copying old path size index new)
      (hlt : index < old.st.length) (hpair : old.pairAt index = .ok (some (key, val)))
      (hcopy : copyPair new key val = .ok (new', true)) {bytes : Mem}
      (hbytes : ∀ i, bytes i = new.st.file i ∨ bytes i = new'.st.file i) :
      Written old path size ⟨size, bytes⟩

variable {old new : PMap} {path : String} {size : ℕ}

theorem Copying.iterateFrom : ∀ {fuel index : ℕ} {new new' : PMap},
    Copying old path size index new → old.iterateFrom copyPair fuel index new = .ok new' →
    ∃ index', Copying old path size index' new'
  | 0, _, _, _, _, hx => by cases hx
  | fuel + 1, index, new, new', h, hx => by
      rw [PMap.iterateFrom] at hx
      split at hx
      · next hlt =>
        obtain ⟨pair, hpair, hx⟩ := Call.bind_eq_ok.mp hx
        cases pair with
        | none =>
          dsimp only at hx
          rw [Call.ok_bind] at hx
          obtain ⟨index', hnext, hx⟩ := Call.bind_eq_ok.mp hx
          exact (h.skip hlt hpair hnext).iterateFrom hx
        | some kv =>
          obtain ⟨⟨new₁, ok⟩, hforeach, hx⟩ := Call.bind_eq_ok.mp hx
          obtain rfl := copyPair_go _ _ _ _ _ hforeach
          obtain ⟨index', hnext, hx⟩ := Call.bind_eq_ok.mp hx
          exact (h.copy hlt hpair hforeach hnext).iterateFrom hx
      · cases hx
        exact ⟨index, h⟩

/-- **The last of these is the file a defragmentation leaves.** -/
theorem written_defragment (hx : old.defragment path size = .ok new) :
    Written old path size new.close := by
  obtain ⟨index, h⟩ := Copying.iterateFrom .start hx
  exact .copied h

end PMap

namespace World

/-- The directory the next process finds if this one stops while the file of a revision of a chunk
is `f`. -/
def stopped (w : World) (cid revision : ℕ) (f : File) : World :=
  ⟨.new w.core.dbpath w.core.chunkSize w.core.chunks.length,
    (Core.chunkName cid revision, f) ::
      (w.files.filter fun entry => decide (entry.1 ≠ Core.chunkName cid revision)).map
        fun entry => (entry.1, w.bytesOf entry)⟩

/-- `Open` opens `file` for the chunk; an empty file cannot be mapped. -/
def Opens (w : World) (cid : ℕ) (file : File) : Prop :=
  w.findChunk cid ≠ "" ∧ w.fileAt (w.findChunk cid) = .ok file ∧ 0 < file.size

/-- The chunk `cid` is `old`, defragmented `count` times by this process, in a directory. -/
structure OnDisk (w : World) (cid count : ℕ) (old : PMap) : Prop where
  dbpath_ne : w.core.dbpath ≠ ""
  chunk_eq : ∃ flags, w.core.chunk cid = .ok ⟨flags, some old, count⟩

/-- The file of revision `n` is that of `old`, and is the one `Open` would open. -/
structure Settled (w : World) (cid n : ℕ) (old : PMap) : Prop where
  path_eq : old.path = w.core.chunkPath cid n
  found : w.findChunk cid = old.path
  opens : w.Opens cid old.close
  denotes : ∃ log m, old.Denotes fnv1a64 log m

/-- The file has every live pair of the `PMap`. -/
def Covers (file : File) (old : PMap) : Prop :=
  ∀ k v, old.value k = some v → file.Contains ⟨k, v⟩

/-- Wherever the process stops while it writes the file of `revision`, the next one opens a file
with every live pair of the chunk. -/
def Recoverable (w : World) (cid revision : ℕ) (old : PMap) : Prop :=
  ∀ f, (truncated old (w.core.chunkPath cid revision)).Written (w.core.chunkPath cid revision)
      w.core.chunkSize f →
    ∃ file, (w.stopped cid revision f).Opens cid file ∧ Covers file old

variable {w : World} {cid count revision n : ℕ} {old : PMap}

/-- The name is one of a file of the chunk. -/
def names (cid : ℕ) (name : String) : Bool :=
  (Core.nameStart cid).toList.isPrefixOf name.toList

theorem names_chunkName (cid revision : ℕ) : names cid (Core.chunkName cid revision) := by
  rw [names, Core.chunkName, String.toList_append, List.isPrefixOf_iff_prefix]
  exact List.prefix_append ..

/-- The name is the least of the names of a chunk's files. -/
def Least (cid : ℕ) (files : List (String × File)) (name : String) : Prop :=
  (name ∈ files.map Prod.fst ∧ names cid name)
    ∧ ∀ name' ∈ files.map Prod.fst, names cid name' → name ≤ name'

/-- The first of the chunk's files comes before that of `revision`, and has every live pair. -/
def Sheltered (w : World) (cid revision : ℕ) (old : PMap) : Prop :=
  ∃ name file, Least cid w.files name ∧ name < Core.chunkName cid revision
    ∧ w.fileAt (w.core.chunksDir ++ name) = .ok file ∧ 0 < file.size ∧ Covers file old

/-- **The file found is the least of the chunk's.** -/
theorem findChunk_eq_iff (hdb : w.core.dbpath ≠ "") {name : String} :
    w.findChunk cid = w.core.chunksDir ++ name ↔ Least cid w.files name := by
  refine Iff.trans ?_ (find?_insertionSort_eq_some (p := names cid))
  rw [findChunk, if_neg hdb, readDir]
  split
  · next found hfound =>
    replace hfound : List.find? (names cid) _ = some found := hfound
    rw [hfound, String.append_right_inj, Option.some.injEq]
  · next hnone =>
    replace hnone : List.find? (names cid) _ = none := hnone
    rw [hnone]
    refine iff_of_false (fun h => ?_) (fun h => by cases h)
    have hlen := congrArg String.length h
    rw [Core.chunksDir, String.length_append, String.length_append] at hlen
    have hdir : "/chunks/".length = 8 := by decide
    rw [hdir, String.length_empty] at hlen
    omega

/-- The names in the directory of a process that stopped. -/
theorem mem_names_stopped {f : File} {revision : ℕ} {name : String} :
    name ∈ (w.stopped cid revision f).files.map Prod.fst
      ↔ name = Core.chunkName cid revision ∨ name ∈ w.files.map Prod.fst := by
  simp only [stopped, List.map_cons, List.mem_cons, List.map_map, Function.comp_def]
  refine or_congr_right' fun hne => ?_
  simp only [List.mem_map, List.mem_filter, decide_eq_true_eq]
  constructor
  · rintro ⟨entry, ⟨hmem, -⟩, rfl⟩
    exact ⟨entry, hmem, rfl⟩
  · rintro ⟨entry, hmem, rfl⟩
    exact ⟨entry, ⟨hmem, hne⟩, rfl⟩

/-- **In the directory of a process that stopped** the least file is the old one or the new one. -/
theorem Least.stopped {f : File} {name : String} {revision : ℕ} (h : Least cid w.files name) :
    Least cid (w.stopped cid revision f).files (min name (Core.chunkName cid revision)) := by
  refine ⟨⟨mem_names_stopped.mpr ?_, ?_⟩, fun name' hmem hnames => ?_⟩
  · rcases min_choice name (Core.chunkName cid revision) with hmin | hmin <;> rw [hmin]
    · exact Or.inr h.1.1
    · exact Or.inl rfl
  · rcases min_choice name (Core.chunkName cid revision) with hmin | hmin <;> rw [hmin]
    · exact h.1.2
    · exact names_chunkName cid revision
  · rcases mem_names_stopped.mp hmem with rfl | hmem
    · exact min_le_right ..
    · exact (min_le_left ..).trans (h.2 name' hmem hnames)

/-- The file of a directory that no `PMap` maps has the bytes of its entry. -/
theorem fileAt_of_find {core : Core} {files : List (String × File)} {entry : String × File}
    {path : String} (hpm : ∀ chunk ∈ core.chunks, chunk.pm = none)
    (h : files.find? (fun entry => decide (core.chunksDir ++ entry.1 = path)) = some entry) :
    World.fileAt ⟨core, files⟩ path = .ok entry.2 := by
  have hnone : (core.chunks.findSome? fun chunk => chunk.pm.bind fun pm =>
      if pm.path = core.chunksDir ++ entry.1 then some pm.close else none) = none :=
    List.findSome?_eq_none_iff.mpr fun chunk hmem => by rw [hpm chunk hmem]; rfl
  rw [fileAt, h]
  exact congrArg Except.ok (congrArg (Option.getD · entry.2) hnone)

theorem pm_of_mem_new {dbpath : String} {chunkSize numChunks : ℕ} {chunk : MetaChunk}
    (h : chunk ∈ (Core.new dbpath chunkSize numChunks).chunks) : chunk.pm = none := by
  rw [List.eq_of_mem_replicate h]

theorem fileAt_stopped_new (w : World) (cid revision : ℕ) (f : File) :
    (w.stopped cid revision f).fileAt (w.core.chunksDir ++ Core.chunkName cid revision)
      = .ok f :=
  fileAt_of_find (fun _ => pm_of_mem_new) (List.find?_cons_of_pos (decide_eq_true rfl))

/-- The other files are as they were. -/
theorem fileAt_stopped_old {name : String} (hne : name ≠ Core.chunkName cid revision) (f : File) :
    (w.stopped cid revision f).fileAt (w.core.chunksDir ++ name)
      = w.fileAt (w.core.chunksDir ++ name) := by
  have hsame : (fun entry : String × File => decide
      (decide (entry.1 ≠ Core.chunkName cid revision) = true
        ∧ decide (w.core.chunksDir ++ entry.1 = w.core.chunksDir ++ name) = true))
      = fun entry => decide (w.core.chunksDir ++ entry.1 = w.core.chunksDir ++ name) := by
    funext entry
    refine decide_eq_decide.mpr ?_
    rw [decide_eq_true_iff, decide_eq_true_iff, String.append_right_inj]
    exact and_iff_right_of_imp fun heq => heq ▸ hne
  have hfind : (w.stopped cid revision f).files.find?
      (fun entry => decide (w.core.chunksDir ++ entry.1 = w.core.chunksDir ++ name))
      = (w.files.find? fun entry => decide (w.core.chunksDir ++ entry.1
        = w.core.chunksDir ++ name)).map fun entry => (entry.1, w.bytesOf entry) := by
    rw [stopped, List.find?_cons_of_neg (by simpa [String.append_right_inj] using hne.symm),
      List.find?_map, List.find?_filter, Function.comp_def, hsame]
  cases hold : w.files.find? fun entry => decide (w.core.chunksDir ++ entry.1
      = w.core.chunksDir ++ name) with
  | some entry =>
    have hfile : w.fileAt (w.core.chunksDir ++ name) = .ok (w.bytesOf entry) := by rw [fileAt, hold]
    rw [hold] at hfind
    rw [hfile]
    exact fileAt_of_find (fun _ => pm_of_mem_new) hfind
  | none =>
    have hfile : w.fileAt (w.core.chunksDir ++ name) = .error .panic := by rw [fileAt, hold]
    rw [hold] at hfind
    replace hfind : (w.stopped cid revision f).files.find? (fun entry => decide
      ((w.stopped cid revision f).core.chunksDir ++ entry.1 = w.core.chunksDir ++ name)) = none :=
      hfind
    rw [hfile, fileAt, hfind]

/-! ## What the next process opens -/

theorem chunkPath_eq (hdb : w.core.dbpath ≠ "") (cid revision : ℕ) :
    w.core.chunkPath cid revision = w.core.chunksDir ++ Core.chunkName cid revision := if_neg hdb

theorem chunksDir_append_ne (hdb : w.core.dbpath ≠ "") (name : String) :
    w.core.chunksDir ++ name ≠ "" := by
  rw [Core.chunksDir]
  simp [hdb]

/-- `Open` opens the file of the least name, if there is one that can be mapped. -/
theorem opens_iff (hdb : w.core.dbpath ≠ "") {file : File} : w.Opens cid file
    ↔ ∃ name, Least cid w.files name ∧ w.fileAt (w.core.chunksDir ++ name) = .ok file
      ∧ 0 < file.size := by
  constructor
  · rintro ⟨hne, hfile, hpos⟩
    obtain ⟨name, hname⟩ : ∃ name, w.findChunk cid = w.core.chunksDir ++ name := by
      rw [findChunk, if_neg hdb] at hne ⊢
      split
      · next name _ => exact ⟨name, rfl⟩
      · next hnone =>
        rw [hnone] at hne
        exact absurd rfl hne
    exact ⟨name, (findChunk_eq_iff hdb).mp hname, hname ▸ hfile, hpos⟩
  · rintro ⟨name, hleast, hfile, hpos⟩
    have hname := (findChunk_eq_iff hdb).mpr hleast
    exact ⟨hname ▸ chunksDir_append_ne hdb name, hname ▸ hfile, hpos⟩

theorem Least.unique {files : List (String × File)} {name name' : String}
    (h : Least cid files name) (h' : Least cid files name') : name = name' :=
  le_antisymm (h.2 name' h'.1.1 h'.1.2) (h'.2 name h.1.1 h.1.2)

/-- The least file, once the process has stopped, is the new one or was the least before. -/
theorem Least.of_stopped {f : File} {name : String}
    (h : Least cid (w.stopped cid revision f).files name) :
    name = Core.chunkName cid revision
      ∨ Least cid w.files name ∧ name < Core.chunkName cid revision := by
  rcases mem_names_stopped.mp h.1.1 with heq | hmem
  · exact Or.inl heq
  · rcases (h.2 _ (mem_names_stopped.mpr (Or.inl rfl)) (names_chunkName cid revision)).eq_or_lt
      with heq | hlt
    · exact Or.inl heq
    · exact Or.inr ⟨⟨⟨hmem, h.1.2⟩, fun name' hmem' hnames' =>
        h.2 name' (mem_names_stopped.mpr (Or.inr hmem')) hnames'⟩, hlt⟩

/-- **What is recoverable is sheltered**: the new file is empty at first. -/
theorem recoverable_iff (hdb : w.core.dbpath ≠ "") :
    w.Recoverable cid revision old ↔ w.Sheltered cid revision old := by
  constructor
  · intro hall
    obtain ⟨file, hopens, hcovers⟩ := hall _ (.created fun _ => 0)
    obtain ⟨name, hleast, hfile, hpos⟩ :=
      (opens_iff (w := w.stopped cid revision ⟨0, fun _ => 0⟩) hdb).mp hopens
    rcases hleast.of_stopped with rfl | ⟨hold, hlt⟩
    · -- an empty file cannot be mapped
      cases (fileAt_stopped_new w cid revision _).symm.trans hfile
      exact absurd hpos (Nat.lt_irrefl 0)
    · exact ⟨name, file, hold, hlt, (fileAt_stopped_old hlt.ne _).symm.trans hfile, hpos, hcovers⟩
  · rintro ⟨name, file, hleast, hlt, hfile, hpos, hcovers⟩ f -
    have hleast' : Least cid (w.stopped cid revision f).files
        (min name (Core.chunkName cid revision)) := hleast.stopped
    rw [min_eq_left hlt.le] at hleast'
    refine ⟨file, (opens_iff (w := w.stopped cid revision f) hdb).mpr ⟨name, hleast', ?_, hpos⟩,
      hcovers⟩
    exact (fileAt_stopped_old hlt.ne f).trans hfile

namespace OnDisk

/-- **The defragmentation of the chunk leaves one of these files**, complete. -/
theorem written (h : w.OnDisk cid count old) {w' : World} (hx : w.defrag cid = .ok w') :
    ∃ flags pm, w'.core.chunk cid = .ok ⟨flags, some pm, count + 1⟩
      ∧ (truncated old (w.core.chunkPath cid (count + 1))).Written
        (w.core.chunkPath cid (count + 1)) w.core.chunkSize pm.close := by
  obtain ⟨flags, hchunk⟩ := h.chunk_eq
  rw [defrag, hchunk, Call.ok_bind] at hx
  obtain ⟨pm₀, hderef, hx⟩ := Call.bind_eq_ok.mp hx
  obtain rfl := Except.ok.inj hderef
  obtain ⟨pm, hpm, hx⟩ := Call.bind_eq_ok.mp hx
  cases hx
  exact ⟨flags, pm, Core.chunk_setChunk hchunk _, PMap.written_defragment hpm⟩

end OnDisk

namespace Settled

theorem least (h : w.Settled cid n old) (hdb : w.core.dbpath ≠ "") :
    Least cid w.files (Core.chunkName cid n) := by
  rw [← findChunk_eq_iff hdb, h.found, h.path_eq, chunkPath_eq hdb]

/-- The old file contains the live pairs, and a zeroed one contains none. -/
theorem contains (h : w.Settled cid n old) {k v : Bytes} (hk : old.value k = some v) :
    old.close.Contains ⟨k, v⟩ ∧ ∀ size, ¬ File.Contains ⟨size, fun _ => 0⟩ ⟨k, v⟩ := by
  obtain ⟨log, m, hd⟩ := h.denotes
  rw [hd.value_eq] at hk
  obtain ⟨i, hi, hi2, hr⟩ := hd.index.mem k v hk
  obtain ⟨-, -, hv⟩ := hd.index.live i hi hi2 _ hr
  have hfits := hd.isLog.fits
  rw [hd.isLog.length_eq] at hfits
  exact ⟨⟨log, _, hd.isLog.holds, hfits, hr⟩, fun size => File.not_contains_zero
    (show 0 < v.length from Nat.lt_of_lt_of_le (by decide) hv) (hd.isLog.recordAt hr).short⟩

/-- **With the chunk in the least of its files**, all depends on the two names. -/
theorem recoverable_iff_lt (h : w.Settled cid n old) (hdb : w.core.dbpath ≠ "") :
    w.Recoverable cid revision old ↔ Core.chunkName cid n < Core.chunkName cid revision := by
  rw [recoverable_iff hdb]
  constructor
  · rintro ⟨name, file, hleast, hlt, -⟩
    exact hleast.unique (h.least hdb) ▸ hlt
  · intro hlt
    obtain ⟨-, hfile, hpos⟩ := h.opens
    rw [h.found, h.path_eq, chunkPath_eq hdb] at hfile
    exact ⟨_, old.close, h.least hdb, hlt, hfile, hpos, fun k v hk => (h.contains hk).1⟩

/-- **If the new file has the lesser name**, `Open` opens it. -/
theorem opens_new (h : w.Settled cid n old) (hdb : w.core.dbpath ≠ "")
    (hle : Core.chunkName cid revision ≤ Core.chunkName cid n) {f : File} (hpos : 0 < f.size) :
    (w.stopped cid revision f).Opens cid f := by
  have hleast : Least cid (w.stopped cid revision f).files
      (min (Core.chunkName cid n) (Core.chunkName cid revision)) := (h.least hdb).stopped
  rw [min_eq_right hle] at hleast
  exact (opens_iff (w := w.stopped cid revision f) hdb).mpr
    ⟨_, hleast, fileAt_stopped_new w cid revision f, hpos⟩

end Settled

/-- A core of one chunk that is the `PMap` `pm`, at revision `r`. -/
def single (pm : PMap) (r : ℕ) : World :=
  ⟨⟨"db", 64, 1, [⟨⟨true, false⟩, some pm, r⟩]⟩, [(Core.chunkName 0 r, ⟨64, fun _ => 0⟩)]⟩

/-- The path of the chunk. -/
def singlePath (r : ℕ) : String := "db" ++ "/chunks/" ++ Core.chunkName 0 r

/-- The chunk, empty. -/
def emptyAt (r : ℕ) : World := single (PMap.new (singlePath r) 64) r

theorem chunkPath_single (pm : PMap) (r r' : ℕ) :
    (single pm r).core.chunkPath 0 r' = singlePath r' :=
  if_neg (show "db" ≠ "" by decide)

theorem chunkName_succ_ne (r : ℕ) : Core.chunkName 0 r ≠ Core.chunkName 0 (r + 1) := fun heq => by
  rw [Core.chunkName, Core.chunkName, String.append_right_inj] at heq
  exact r.succ_ne_self (Nat.repr_inj.mp heq).symm

theorem steps_defrag_emptyAt (r : ℕ) : Steps (emptyAt r) (.defrag 0) (emptyAt (r + 1)) := by
  have hne := chunkName_succ_ne r
  have hold : truncated (PMap.new (singlePath r) 64) (singlePath (r + 1))
      = PMap.new (singlePath r) 64 :=
    if_neg fun h => hne ((String.append_right_inj _).mp h.2)
  have hfiles : (emptyAt r).remove (singlePath r) ((emptyAt r).create 0 (r + 1))
      = (emptyAt (r + 1)).files := by
    have hdb : (emptyAt r).core.dbpath ≠ "" := show "db" ≠ "" by decide
    rw [create, if_neg hdb]
    simp only [remove, emptyAt, single, singlePath, Core.chunksDir, String.append_right_inj,
      List.filter_cons, hne, hne.symm, ne_eq, not_false_eq_true, not_true_eq_false, decide_true,
      decide_false, if_true, List.filter_nil]
    rfl
  show (truncated _ ((emptyAt r).core.chunkPath 0 (r + 1))).defragment
    ((emptyAt r).core.chunkPath 0 (r + 1)) 64 >>= _ = _
  rw [emptyAt, chunkPath_single, hold]
  show (.ok ⟨_, (emptyAt r).remove (singlePath r) ((emptyAt r).create 0 (r + 1))⟩ : Call World) = _
  rw [hfiles]
  rfl

theorem run_emptyAt : ∀ r a : ℕ,
    Run Steps (emptyAt a) (List.replicate r (.defrag 0)) (emptyAt (a + r))
  | 0, a => .refl _
  | r + 1, a => by
      rw [show a + (r + 1) = a + 1 + r by omega]
      exact .cons (steps_defrag_emptyAt a) (run_emptyAt r (a + 1))

/-- One pair in an empty chunk. -/
theorem exists_pair (path : String) : ∃ pm,
    (PMap.new path 64).apply fnv1a64 (.set [1] (PMap.stamped 5 [])) = .ok (none, pm)
      ∧ pm.path = path ∧ pm.st.size = 64 ∧ (∃ log m, pm.Denotes fnv1a64 log m)
      ∧ pm.value [1] = some (PMap.stamped 5 []) := by
  have hfit : PMap.Fits 64 [1] := ⟨by decide, by decide⟩
  have hlen : (PMap.stamped 5 []).length = 8 := by decide
  have happly := PMap.apply_set_new fnv1a64 path hlen hfit
  have hstep : PMap.Step fnv1a64 (PMap.new path 64) (.set [1] (PMap.stamped 5 []), none) _ :=
    ⟨trivial, happly, show 0 + (12 + 1 + 8) ≤ 2 ^ 32 by decide⟩
  have h := (hstep.refines (PMap.refines_new fnv1a64 path 64)).2.1
  refine ⟨_, happly, rfl, rfl, ⟨_, _, h.toDenotes⟩, ?_⟩
  rw [h.value_eq, Ledger.dict_apply]
  rfl

theorem bytesOf_single {pm : PMap} {r : ℕ} (hpath : pm.path = singlePath r) (f : File) :
    (single pm r).bytesOf (Core.chunkName 0 r, f) = pm.close := by
  have hsame : pm.path = (single pm r).core.chunksDir ++ Core.chunkName 0 r := hpath
  rw [bytesOf, show (single pm r).core.chunks = [⟨⟨true, false⟩, some pm, r⟩] from rfl,
    List.findSome?_singleton]
  dsimp only [Option.bind_some]
  rw [if_pos hsame, Option.getD_some]

theorem onDisk_single (pm : PMap) (r : ℕ) : (single pm r).OnDisk 0 r pm :=
  ⟨show "db" ≠ "" by decide, _, rfl⟩

theorem settled_single {pm : PMap} {r : ℕ} (hpath : pm.path = singlePath r)
    (hsize : pm.st.size = 64) (hd : ∃ log m, pm.Denotes fnv1a64 log m) :
    (single pm r).Settled 0 r pm := by
  have hdb := (onDisk_single pm r).dbpath_ne
  have hfound : (single pm r).findChunk 0 = pm.path := by
    rw [hpath]
    refine (findChunk_eq_iff hdb).mpr ⟨⟨List.mem_singleton_self _, names_chunkName 0 r⟩, ?_⟩
    exact fun name hname _ => (List.mem_singleton.mp hname).ge
  have hsame : (single pm r).core.chunksDir ++ Core.chunkName 0 r = pm.path := hpath.symm
  have hfind : (single pm r).files.find? (fun entry => decide
      ((single pm r).core.chunksDir ++ entry.1 = pm.path)) = some (Core.chunkName 0 r, _) :=
    List.find?_cons_of_pos (decide_eq_true hsame)
  refine ⟨hpath.trans (chunkPath_single pm r r).symm, hfound, ⟨?_, ?_, ?_⟩, hd⟩
  · rw [hfound, hpath, ← chunkPath_single pm r r]
    exact Core.chunkPath_ne_empty hdb r
  · rw [hfound, fileAt, hfind]
    exact congrArg Except.ok (bytesOf_single hpath _)
  · show 0 < pm.st.size
    rw [hsize]
    decide

/-- **A chunk with a pair may be at any revision.** -/
theorem exists_settled (r : ℕ) : ∃ evs w pm, Run Steps ⟨.new "db" 64 1, []⟩ evs w
    ∧ w.OnDisk 0 r pm ∧ w.Settled 0 r pm ∧ w.core.chunkSize = 64
    ∧ pm.value [1] = some (PMap.stamped 5 []) := by
  obtain ⟨pm, happly, hpath, hsize, hd, hval⟩ := exists_pair (singlePath r)
  have hindex : (emptyAt r).core.chunkIndex [1] = 0 := Nat.mod_one _
  have hchunk : (emptyAt r).core.chunk ((emptyAt r).core.chunkIndex [1])
      = .ok ⟨⟨true, false⟩, some (PMap.new (singlePath r) 64), r⟩ := by rw [hindex]; rfl
  have hrequest := Core.request_eq (fun _ => true) (.set [1] (PMap.stamped 5 [])) hchunk rfl rfl rfl
    happly
  rw [show (emptyAt r).core.chunkIndex (Op.set [1] (PMap.stamped 5 [])).key = 0 from hindex]
    at hrequest
  have hset : Steps (emptyAt r) (.request (fun _ => true) (.set [1] (PMap.stamped 5 [])))
      (single pm r) := by
    rw [Steps, step, hrequest]
    rfl
  have hstart : Steps ⟨.new "db" 64 1, []⟩ (.setPresent 0) (emptyAt 0) := rfl
  have hrun := run_emptyAt r 0
  rw [Nat.zero_add] at hrun
  exact ⟨_, _, pm, .cons hstart (hrun.append (.cons hset (.refl _))), onDisk_single pm r,
    settled_single hpath hsize hd, rfl, hval⟩

end World

end Treeless
