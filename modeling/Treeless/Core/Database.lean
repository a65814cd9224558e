import Treeless.Core.Count
import Treeless.Core.Crash
import Treeless.Core.Life

/-!
# Core/Database — a directory of chunks, over all the processes that serve it

    process 1                             process 2
    New ─ ChunkSetPresent ─ Set ─ defrag ─│─ New ─ Open ─ Set ─ ChunkSetNoPresent ─ …

What a core is for is one dictionary for each chunk that is present (`Shelf`).  Every chunk has one
file, with the name of one of its revisions, and the file of no other chunk has a name of it
(`Stored`); so what a process leaves behind is what the next one finds, chunk by chunk.
-/

namespace Treeless

/-! ## The names of the files -/

namespace Core

theorem toList_nameStart (cid : ℕ) :
    (nameStart cid).toList = Nat.toDigits 10 cid ++ '_' :: ['r', 'e', 'v'] := by
  rw [nameStart, String.toList_append]
  exact congrArg₂ _ (String.toList_ofList ..) rfl

/-- **A name is of one chunk only.** -/
theorem names_unique {cid cid' : ℕ} {name : String} (h : World.names cid name = true)
    (h' : World.names cid' name = true) : cid = cid' := by
  rw [World.names, List.isPrefixOf_iff_prefix, toList_nameStart] at h h'
  have hdigits : Nat.toDigits 10 cid = Nat.toDigits 10 cid' := by
    rcases List.prefix_or_prefix_of_prefix h h' with hp | hp
    · exact eq_of_prefix_sep (underscore_notMem_toDigits cid) (underscore_notMem_toDigits cid') hp
    · exact (eq_of_prefix_sep (underscore_notMem_toDigits cid')
        (underscore_notMem_toDigits cid) hp).symm
  exact Nat.repr_inj.mp (congrArg String.ofList hdigits)

theorem chunkName_inj {cid cid' r r' : ℕ} (h : chunkName cid r = chunkName cid' r') :
    cid = cid' ∧ r = r' := by
  obtain rfl := names_unique (World.names_chunkName cid r) (h ▸ World.names_chunkName cid' r')
  rw [chunkName, chunkName, String.append_right_inj] at h
  exact ⟨rfl, Nat.repr_inj.mp h⟩

end Core

theorem PMap.stays_apply (hash : Bytes → UInt64) (c : PMap) (op : Op) :
    c.Stays (c.apply hash op) := by
  cases op with
  | set k v => exact c.stays_set _ k v
  | cas k v => exact c.stays_cas _ k v
  | del k v => exact c.stays_del _ k v

/-! ## What a core is for -/

/-- The dictionaries of the chunks that are present. -/
abbrev Shelf := ℕ → Option Dict

/-- What happens to a database. -/
inductive Act
  | request (isSynced : ℕ → Bool) (op : Op) (e : Option CoreError)
  | setPresent (cid : ℕ)
  | setNoPresent (cid : ℕ)
  | setProtected (cid : ℕ)
  | defrag (cid : ℕ)
  /-- The process ends, and another one opens what it left. -/
  | reboot

/-- The request of an act that came to the `PMap` of its chunk, with its answer. -/
def Act.asks : Act → Option (Op × Option Error)
  | request _ op none => some (op, none)
  | request _ op (some (.pmap e)) => some (op, some e)
  | _ => none

namespace Shelf

/-- A request to the dictionary of its chunk. -/
def request (D : Shelf) (cid : ℕ) (ev : Op × Option Error) : Shelf :=
  match D cid with
  | none => D
  | some m => Function.update D cid (some (m.step ev))

/-- **The reference**: what an act makes of the dictionaries of `numChunks` chunks. -/
def step (numChunks : ℕ) (D : Shelf) (act : Act) : Shelf :=
  match act with
  | .request _ _ _ =>
    match act.asks with
    | none => D
    | some ev => D.request (getChunkID ev.1.key numChunks) ev
  | .setPresent cid => if D cid = none then Function.update D cid (some fun _ => none) else D
  | .setNoPresent cid => Function.update D cid none
  | _ => D

/-- What a `Get` of the key shows. -/
def get (D : Shelf) (cid : ℕ) (key : Bytes) : Except CoreError (Option Bytes) :=
  match D cid with
  | none => .error .chunkNotPresent
  | some m => .ok (m key)

/-- The error a request meets, unless there is no room for it. -/
def answer (D : Shelf) (cid : ℕ) (isSynced : ℕ → Bool) (op : Op) : Option CoreError :=
  match D cid with
  | none => some .chunkNotPresent
  | some m => if op.isCas && !isSynced cid then some .chunkNotSynced else (m.answer op).map .pmap

end Shelf

namespace World

/-- The act takes the world `w` to `w'`.  A request brings a timestamp if it is a `Del`, and a
process that opens the files finds none of a next revision. -/
def Acts (w : World) : Act → World → Prop
  | .request isSynced op e, w' =>
    op.Timed ∧ ∃ core, w.core.request isSynced op = .ok (e, core) ∧ w' = { w with core }
  | .setPresent cid, w' => Steps w (.setPresent cid) w'
  | .setNoPresent cid, w' => Steps w (.setNoPresent cid) w'
  | .setProtected cid, w' => Steps w (.setProtected cid) w'
  | .defrag cid, w' => Steps w (.defrag cid) w'
  | .reboot, w' => w.restart.OpensOther ∧ Steps w.restart .openAll w'

/-- The names of the files. -/
def fileNames (w : World) : List String := w.files.map Prod.fst

/-- The only file of the chunk is that of revision `r`. -/
structure Stored (w : World) (cid r : ℕ) : Prop where
  mem : Core.chunkName cid r ∈ w.fileNames
  only : ∀ name ∈ w.fileNames, names cid name = true → name = Core.chunkName cid r

/-- The chunk is what the shelf says: not there, with no file, or the dictionary, in its file. -/
def Shelves (size : ℕ) (evs : List (Op × Option Error)) (w : World) (cid : ℕ) (chunk : MetaChunk) :
    Option Dict → Prop
  | none => chunk.present = false ∧ chunk.pm = none
      ∧ ∀ name ∈ w.fileNames, ¬ names cid name = true
  | some m => chunk.present = true ∧ ∃ pm r, chunk.pm = some pm ∧ pm.Leads size evs m
      ∧ pm.path = w.core.chunksDir ++ Core.chunkName cid r ∧ w.Stored cid r

/-- The world `w` keeps the dictionaries `D`. -/
structure Keeps (size numChunks : ℕ) (evs : List (Op × Option Error)) (w : World) (D : Shelf) :
    Prop where
  dbpath_ne : w.core.dbpath ≠ ""
  size_eq : w.core.chunkSize = size
  length_eq : w.core.chunks.length = numChunks
  clear : w.core.Clear
  nodup : w.fileNames.Nodup
  shelves : ∀ cid chunk, w.core.chunks[cid]? = some chunk → w.Shelves size evs cid chunk (D cid)

section Keeps

variable {size numChunks : ℕ} {evs : List (Op × Option Error)} {w w' : World} {D : Shelf}
  {cid : ℕ}

/-- A chunk is kept where its files stay. -/
theorem Shelves.frame {chunk : MetaChunk} {d : Option Dict} (h : w.Shelves size evs cid chunk d)
    (hdb : w'.core.dbpath = w.core.dbpath)
    (hnames : ∀ name, names cid name = true → (name ∈ w'.fileNames ↔ name ∈ w.fileNames)) :
    w'.Shelves size evs cid chunk d := by
  cases d with
  | none =>
    obtain ⟨hpres, hpm, hno⟩ := h
    exact ⟨hpres, hpm, fun name hmem hname => hno name ((hnames name hname).mp hmem) hname⟩
  | some m =>
    obtain ⟨hpres, pm, r, hpm, hleads, hpath, hmem, honly⟩ := h
    refine ⟨hpres, pm, r, hpm, hleads, ?_, (hnames _ (names_chunkName cid r)).mpr hmem,
      fun name hname hn => honly name ((hnames name hn).mp hname) hn⟩
    rw [hpath, Core.chunksDir, Core.chunksDir, hdb]

/-- **An act on one chunk**, with what it does to the files of that chunk. -/
theorem Keeps.replace (h : w.Keeps size numChunks evs D) {chunk : MetaChunk} {d : Option Dict}
    (hchunks : w'.core.chunks = w.core.chunks.set cid chunk)
    (hdb : w'.core.dbpath = w.core.dbpath) (hsize : w'.core.chunkSize = w.core.chunkSize)
    (hclear : w'.core.Clear) (hnodup : w'.fileNames.Nodup)
    (hnames : ∀ name, names cid name = false → (name ∈ w'.fileNames ↔ name ∈ w.fileNames))
    (hshelf : w'.Shelves size evs cid chunk d) :
    w'.Keeps size numChunks evs (Function.update D cid d) where
  dbpath_ne := hdb ▸ h.dbpath_ne
  size_eq := hsize.trans h.size_eq
  length_eq := by rw [hchunks, List.length_set, h.length_eq]
  clear := hclear
  nodup := hnodup
  shelves i chunk' hget := by
    rw [hchunks] at hget
    by_cases hi : i = cid
    · subst hi
      rw [Function.update_self]
      have hlt : i < (w.core.chunks.set i chunk).length := (List.getElem?_eq_some_iff.mp hget).1
      rw [List.getElem?_set_self (by rwa [List.length_set] at hlt)] at hget
      rwa [← Option.some.inj hget]
    · rw [List.getElem?_set_ne (Ne.symm hi)] at hget
      rw [Function.update_of_ne hi]
      refine (h.shelves i chunk' hget).frame hdb fun name hname => hnames name ?_
      exact Bool.eq_false_iff.mpr fun hcid => hi (Core.names_unique hname hcid)

theorem Keeps.chunk (h : w.Keeps size numChunks evs D) {chunk : MetaChunk}
    (hchunk : w.core.chunk cid = .ok chunk) : w.Shelves size evs cid chunk (D cid) :=
  h.shelves cid chunk (Core.getElem?_of_chunk hchunk)

/-- An act on one chunk that leaves the files as they are. -/
theorem Keeps.setChunk (h : w.Keeps size numChunks evs D) {chunk : MetaChunk} {d : Option Dict}
    (hclear : (w.core.setChunk cid chunk).Clear) (hshelf : w.Shelves size evs cid chunk d) :
    Keeps size numChunks evs { w with core := w.core.setChunk cid chunk }
      (Function.update D cid d) :=
  h.replace rfl rfl rfl hclear h.nodup (fun _ _ => Iff.rfl)
    (hshelf.frame rfl fun _ _ => Iff.rfl)

/-! ## Requests -/

/-- The request of an act that the `PMap` has answered. -/
theorem asks_map (isSynced : ℕ → Bool) (op : Op) (e : Option Error) :
    (Act.request isSynced op (e.map .pmap)).asks = some (op, e) := by
  cases e <;> rfl

/-- **A request**: its answer is that of the reference, unless there is no room, and it leaves what
the reference leaves. -/
theorem Keeps.request (h : w.Keeps size numChunks evs D) (ho : PMap.Orderly size evs)
    (hsize : size ≤ 2 ^ 28) {isSynced : ℕ → Bool} {op : Op} {e : Option CoreError}
    (hev : ∀ ev, (Act.request isSynced op e).asks = some ev → ev ∈ evs)
    (hs : w.Acts (.request isSynced op e) w') :
    (e = D.answer (getChunkID op.key numChunks) isSynced op ∨ e = some (.pmap .storeLimit))
      ∧ w'.Keeps size numChunks evs (D.step numChunks (.request isSynced op e)) := by
  obtain ⟨htimed, core, hx, rfl⟩ := hs
  have hindex : w.core.chunkIndex op.key = getChunkID op.key numChunks := by
    rw [Core.chunkIndex, h.length_eq]
  have hsteps : Steps w (.request isSynced op) { w with core } := by
    rw [Steps, step, hx]
    rfl
  have hclear := hsteps.clear h.dbpath_ne trivial h.clear
  rw [Core.request, hindex] at hx
  obtain ⟨chunk, hchunk, hx⟩ := Call.bind_eq_ok.mp hx
  have hshelf := h.chunk hchunk
  cases hD : D (getChunkID op.key numChunks) with
  | none =>
    rw [hD] at hshelf
    rw [if_neg (by rw [hshelf.1]; exact Bool.false_ne_true)] at hx
    cases hx
    exact ⟨Or.inl (by rw [Shelf.answer, hD]), h⟩
  | some m =>
    rw [hD] at hshelf
    obtain ⟨hpres, pm, r, hpm, hleads, hpath, hstored⟩ := hshelf
    rw [if_pos hpres] at hx
    split at hx
    · next hunsynced =>
      cases hx
      exact ⟨Or.inl (by rw [Shelf.answer, hD]; exact (if_pos hunsynced).symm), h⟩
    · next hsynced =>
      rw [hpm, Core.deref, Call.ok_bind] at hx
      obtain ⟨⟨e', pm'⟩, happly, hx⟩ := Call.bind_eq_ok.mp hx
      cases hx
      have hans : PMap.Answered fnv1a64 pm (op, e') pm' := ⟨htimed, happly⟩
      have hasked : ∀ ev, (PMap.Deed.request op e').asks = some ev → ev ∈ evs :=
        fun ev hask => hev ev ((asks_map isSynced op e').trans hask)
      have hleads' := hleads.step ho hsize hasked hans
      constructor
      · rw [Shelf.answer, hD]
        dsimp only
        rw [if_neg hsynced]
        rcases hleads.answer hsize hans with rfl | rfl
        · exact Or.inl rfl
        · exact Or.inr rfl
      · have hstep : D.step numChunks (.request isSynced op (e'.map .pmap))
            = Function.update D (getChunkID op.key numChunks) (some (m.step (op, e'))) := by
          rw [Shelf.step, asks_map]
          dsimp only
          rw [Shelf.request, hD]
        rw [hstep]
        exact h.setChunk hclear ⟨hpres, pm', r, rfl, hleads',
          (PMap.stays_apply fnv1a64 pm op _ happly).trans hpath, hstored⟩

/-! ## Files -/

theorem mem_create (hdb : w.core.dbpath ≠ "") {r : ℕ} {name : String} :
    name ∈ (w.create cid r).map Prod.fst ↔ name = Core.chunkName cid r ∨ name ∈ w.fileNames := by
  rw [create, if_neg hdb, List.map_cons, List.mem_cons]
  refine or_congr_right' fun hne => ?_
  simp only [fileNames, List.mem_map, List.mem_filter, decide_eq_true_eq]
  constructor
  · rintro ⟨entry, ⟨hmem, -⟩, rfl⟩
    exact ⟨entry, hmem, rfl⟩
  · rintro ⟨entry, hmem, rfl⟩
    exact ⟨entry, ⟨hmem, hne⟩, rfl⟩

theorem nodup_create (hdb : w.core.dbpath ≠ "") (h : w.fileNames.Nodup) (cid r : ℕ) :
    ((w.create cid r).map Prod.fst).Nodup := by
  rw [create, if_neg hdb, List.map_cons, List.nodup_cons]
  refine ⟨fun hmem => ?_, h.sublist (List.filter_sublist.map Prod.fst)⟩
  obtain ⟨entry, hentry, heq⟩ := List.mem_map.mp hmem
  exact of_decide_eq_true (List.mem_filter.mp hentry).2 heq

theorem mem_remove {files : List (String × File)} {name name' : String} :
    name ∈ (w.remove (w.core.chunksDir ++ name') files).map Prod.fst
      ↔ name ∈ files.map Prod.fst ∧ name ≠ name' := by
  simp only [remove, List.mem_map, List.mem_filter, decide_eq_true_eq, ne_eq,
    String.append_right_inj]
  constructor
  · rintro ⟨entry, ⟨hmem, hne⟩, rfl⟩
    exact ⟨⟨entry, hmem, rfl⟩, hne⟩
  · rintro ⟨⟨entry, hmem, rfl⟩, hne⟩
    exact ⟨entry, ⟨hmem, hne⟩, rfl⟩

theorem nodup_remove {files : List (String × File)} (h : (files.map Prod.fst).Nodup)
    (path : String) : ((w.remove path files).map Prod.fst).Nodup :=
  h.sublist (List.filter_sublist.map Prod.fst)

/-- A name that is not of the chunk is not the name of one of its files. -/
theorem ne_chunkName {name : String} (h : names cid name = false) (r : ℕ) :
    name ≠ Core.chunkName cid r := by
  rintro rfl
  rw [names_chunkName] at h
  cases h

/-- **`ChunkSetPresent`** makes an empty dictionary. -/
theorem Keeps.setPresent (h : w.Keeps size numChunks evs D) (hs : w.Acts (.setPresent cid) w') :
    w'.Keeps size numChunks evs (D.step numChunks (.setPresent cid)) := by
  have hclear := Steps.clear hs h.dbpath_ne trivial h.clear
  obtain ⟨chunk, hchunk, hx⟩ := Call.bind_eq_ok.mp hs
  have hshelf := h.chunk hchunk
  rw [Shelf.step]
  cases hD : D cid with
  | some m =>
    rw [hD] at hshelf
    rw [if_pos hshelf.1] at hx
    cases hx
    rwa [if_neg (Option.some_ne_none m)]
  | none =>
    rw [hD] at hshelf
    obtain ⟨hpres, -, hno⟩ := hshelf
    rw [if_neg (by rw [hpres]; exact Bool.false_ne_true)] at hx
    cases hx
    rw [if_pos rfl]
    refine h.replace rfl rfl rfl hclear (nodup_create h.dbpath_ne h.nodup cid 0) (fun name hname =>
      (mem_create h.dbpath_ne).trans (or_iff_right (ne_chunkName hname 0))) ?_
    refine ⟨rfl, _, 0, rfl, ⟨Ledger.new size, ?_, rfl⟩, if_neg h.dbpath_ne,
      (mem_create h.dbpath_ne).mpr (Or.inl rfl), fun name hmem hname => ?_⟩
    · rw [h.size_eq]
      exact PMap.lived_new _ size evs
    · rcases (mem_create h.dbpath_ne).mp hmem with heq | hmem
      · exact heq
      · exact absurd hname (hno name hmem)

/-- **`ChunkSetNoPresent`** drops the dictionary with its file. -/
theorem Keeps.setNoPresent (h : w.Keeps size numChunks evs D)
    (hs : w.Acts (.setNoPresent cid) w') :
    w'.Keeps size numChunks evs (D.step numChunks (.setNoPresent cid)) := by
  have hclear := Steps.clear hs h.dbpath_ne trivial h.clear
  obtain ⟨chunk, hchunk, hx⟩ := Call.bind_eq_ok.mp hs
  have hshelf := h.chunk hchunk
  rw [Shelf.step]
  cases hD : D cid with
  | none =>
    rw [hD] at hshelf
    rw [if_neg (by rw [hshelf.1]; exact Bool.false_ne_true)] at hx
    cases hx
    rwa [← hD, Function.update_eq_self]
  | some m =>
    rw [hD] at hshelf
    obtain ⟨hpres, pm, r, hpm, -, hpath, hstored⟩ := hshelf
    rw [if_pos hpres, hpm, Core.deref, Call.ok_bind] at hx
    cases hx
    have habsent : chunk.setNoPresent = .absent := if_pos hpres
    refine h.replace rfl rfl rfl hclear (nodup_remove h.nodup pm.path) (fun name hname => ?_) ?_
    · rw [fileNames, hpath]
      exact mem_remove.trans (and_iff_left (ne_chunkName hname r))
    · refine ⟨by rw [habsent]; rfl, rfl, fun name hmem hname => ?_⟩
      rw [fileNames, hpath] at hmem
      obtain ⟨hmem, hne⟩ := mem_remove.mp hmem
      exact hne (hstored.only name hmem hname)

/-- `ChunkSetProtected` leaves the dictionaries as they are. -/
theorem Keeps.setProtected (h : w.Keeps size numChunks evs D)
    (hs : w.Acts (.setProtected cid) w') : w'.Keeps size numChunks evs D := by
  have hclear := Steps.clear hs h.dbpath_ne trivial h.clear
  obtain ⟨r, hr, hx⟩ := Call.bind_eq_ok.mp hs
  cases hx
  obtain ⟨chunk, hchunk, hr⟩ := Call.bind_eq_ok.mp hr
  have hshelf := h.chunk hchunk
  split at hr
  · cases hr
    exact h
  · next flags hflags =>
    cases hr
    have hpres : flags.present = chunk.present := by
      rw [Flags.setProtected] at hflags
      split at hflags
      · rw [← Option.some.inj hflags]
      · cases hflags
    have hshelf' : w.Shelves size evs cid { chunk with toFlags := flags } (D cid) := by
      cases hD : D cid with
      | none =>
        rw [hD] at hshelf
        exact ⟨hpres.trans hshelf.1, hshelf.2⟩
      | some m =>
        rw [hD] at hshelf
        exact ⟨hpres.trans hshelf.1, hshelf.2⟩
    have hkeeps := h.setChunk hclear hshelf'
    rwa [Function.update_eq_self] at hkeeps

/-! ## Defragmentations -/

/-- **A defragmentation** of a chunk that is present returns, and leaves the dictionaries as they
are. -/
theorem Keeps.exists_defrag (h : w.Keeps size numChunks evs D) (ho : PMap.Orderly size evs)
    (hsize : size ≤ 2 ^ 28) {chunk : MetaChunk} (hchunk : w.core.chunk cid = .ok chunk)
    (hpm : chunk.pm ≠ none) :
    ∃ w', w.Acts (.defrag cid) w' ∧ w'.Keeps size numChunks evs D := by
  have hshelf := h.chunk hchunk
  cases hD : D cid with
  | none =>
    rw [hD] at hshelf
    exact absurd hshelf.2.1 hpm
  | some m =>
    rw [hD] at hshelf
    obtain ⟨hpres, pm, r, hpm, hleads, hpath, hstored⟩ := hshelf
    have hnext : w.core.chunkPath cid (chunk.revision + 1)
        = w.core.chunksDir ++ Core.chunkName cid (chunk.revision + 1) := if_neg h.dbpath_ne
    have hother : w.core.chunkPath cid (chunk.revision + 1) ≠ pm.path :=
      h.clear cid chunk pm (Core.getElem?_of_chunk hchunk) hpm
    have hrev : Core.chunkName cid (chunk.revision + 1) ≠ Core.chunkName cid r := fun heq => by
      rw [hnext, hpath, heq] at hother
      exact hother rfl
    obtain ⟨pm', hx, hleads'⟩ := hleads.defragment ho hsize
      (w.core.chunkPath cid (chunk.revision + 1))
    have hacts : w.Acts (.defrag cid) ⟨w.core.setChunk cid { chunk with
        pm := some pm', revision := chunk.revision + 1 },
        w.remove pm.path (w.create cid (chunk.revision + 1))⟩ := by
      rw [Acts, Steps, step, World.defrag, hchunk, Call.ok_bind, hpm, Core.deref, Call.ok_bind]
      dsimp only
      rw [truncated, if_neg fun hsame => hother hsame.2.symm, h.size_eq, hx]
      rfl
    refine ⟨_, hacts, ?_⟩
    have hmem : ∀ {name : String}, name ∈ (w.remove pm.path (w.create cid (chunk.revision + 1))).map
        Prod.fst ↔ (name = Core.chunkName cid (chunk.revision + 1) ∨ name ∈ w.fileNames)
          ∧ name ≠ Core.chunkName cid r := fun {name} => by
      rw [hpath, mem_remove, mem_create h.dbpath_ne]
    have hsame : Function.update D cid (some m) = D := by rw [← hD, Function.update_eq_self]
    rw [← hsame]
    refine h.replace rfl rfl rfl (Steps.clear hacts h.dbpath_ne trivial h.clear)
      (nodup_remove (nodup_create h.dbpath_ne h.nodup cid _) pm.path)
      (fun name hname => hmem.trans (by
        rw [and_iff_left (ne_chunkName hname r), or_iff_right (ne_chunkName hname _)]))
      ⟨hpres, pm', chunk.revision + 1, rfl, hleads',
        (path_defragment _ _ _ _ hx).trans hnext, hmem.mpr ⟨Or.inl rfl, hrev⟩,
        fun name hname hn => ?_⟩
    obtain ⟨heq | hold, hne⟩ := hmem.mp hname
    · exact heq
    · exact absurd (hstored.only name hold hn) hne

/-- A chunk that is not there cannot be defragmented. -/
theorem Keeps.defrag (h : w.Keeps size numChunks evs D) (ho : PMap.Orderly size evs)
    (hsize : size ≤ 2 ^ 28) (hs : w.Acts (.defrag cid) w') : w'.Keeps size numChunks evs D := by
  have hx := hs
  obtain ⟨chunk, hchunk, hx⟩ := Call.bind_eq_ok.mp hx
  obtain ⟨old, hold, -⟩ := Call.bind_eq_ok.mp hx
  have hpm : chunk.pm ≠ none := Core.deref_eq hold ▸ Option.some_ne_none old
  obtain ⟨w₁, hs₁, hkeeps⟩ := h.exists_defrag ho hsize hchunk hpm
  rwa [Except.ok.inj (Eq.trans (Eq.symm hs) hs₁)]

/-! ## The next process -/

/-- A chunk has fewer than four bytes left. -/
def Cramped (size : ℕ) (w : World) : Prop := ∃ (cid : ℕ) (chunk : MetaChunk) (pm : PMap),
  w.core.chunks[cid]? = some chunk ∧ chunk.pm = some pm ∧ size < pm.st.length + 4

/-- The path of a chunk is that of a file of the chunk. -/
theorem Keeps.path_eq (h : w.Keeps size numChunks evs D) {chunk : MetaChunk} {pm : PMap}
    (hget : w.core.chunks[cid]? = some chunk) (hpm : chunk.pm = some pm) :
    ∃ m r, D cid = some m ∧ pm.Leads size evs m
      ∧ pm.path = w.core.chunksDir ++ Core.chunkName cid r ∧ w.Stored cid r := by
  have hshelf := h.shelves cid chunk hget
  cases hD : D cid with
  | none =>
    rw [hD] at hshelf
    rw [hshelf.2.1] at hpm
    cases hpm
  | some m =>
    rw [hD] at hshelf
    obtain ⟨-, pm', r, hpm', hrest⟩ := hshelf
    obtain rfl := Option.some.inj (hpm'.symm.trans hpm)
    exact ⟨m, r, rfl, hrest⟩

/-- **A process leaves the bytes of a chunk in its file.** -/
theorem Keeps.mem_restart (h : w.Keeps size numChunks evs D) {chunk : MetaChunk} {pm : PMap}
    {r : ℕ} (hget : w.core.chunks[cid]? = some chunk) (hpm : chunk.pm = some pm)
    (hpath : pm.path = w.core.chunksDir ++ Core.chunkName cid r)
    (hmem : Core.chunkName cid r ∈ w.fileNames) :
    (Core.chunkName cid r, pm.close) ∈ w.restart.files := by
  obtain ⟨entry, hentry, hname⟩ := List.mem_map.mp hmem
  refine List.mem_map.mpr ⟨entry, hentry, Prod.ext hname ?_⟩
  have hbytes : (w.core.chunks.findSome? fun chunk => chunk.pm.bind fun pm =>
      if pm.path = w.core.chunksDir ++ entry.1 then some pm.close else none) = some pm.close := by
    refine findSome?_eq_some_of_forall (fun chunk' hmem' => ?_)
      ⟨chunk, List.mem_of_getElem? hget, ?_⟩
    · obtain ⟨cid', hget'⟩ := List.mem_iff_getElem?.mp hmem'
      cases hpm' : chunk'.pm with
      | none => exact Or.inl rfl
      | some pm' =>
        obtain ⟨-, r', -, -, hpath', -⟩ := h.path_eq hget' hpm'
        rw [Option.bind_some]
        split
        · next heq =>
          -- the chunk of that path is the chunk itself
          rw [hpath', hname, String.append_right_inj] at heq
          obtain ⟨rfl, -⟩ := Core.chunkName_inj heq
          obtain rfl := Option.some.inj (hget'.symm.trans hget)
          exact Or.inr (congrArg (some ·.close) (Option.some.inj (hpm'.symm.trans hpm)))
        · exact Or.inl rfl
    · rw [hpm, Option.bind_some, hname, if_pos hpath]
  show w.bytesOf entry = pm.close
  rw [bytesOf, hbytes]
  rfl

/-- The process that opens what `w` left, after the turns for the chunks below `n`. -/
structure Reopening (size numChunks : ℕ) (evs : List (Op × Option Error)) (w : World) (D : Shelf)
    (n : ℕ) (w₁ : World) : Prop where
  files_eq : w₁.files = w.restart.files
  dbpath_eq : w₁.core.dbpath = w.core.dbpath
  size_eq : w₁.core.chunkSize = w.core.chunkSize
  length_eq : w₁.core.chunks.length = w.core.chunks.length
  opened : ∀ cid < n, ∀ chunk, w₁.core.chunks[cid]? = some chunk →
    w₁.Shelves size evs cid chunk (D cid)
  closed : ∀ cid, n ≤ cid → ∀ chunk, w₁.core.chunks[cid]? = some chunk →
    chunk.present = false ∧ chunk.pm = none

theorem reopening_zero : Reopening size numChunks evs w D 0 w.restart where
  files_eq := rfl
  dbpath_eq := rfl
  size_eq := rfl
  length_eq := List.length_replicate ..
  opened cid hcid := absurd hcid (Nat.not_lt_zero cid)
  closed cid _ chunk hget := by
    rw [List.eq_of_mem_replicate (List.mem_of_getElem? hget)]
    exact ⟨rfl, rfl⟩

theorem fileNames_restart : w.restart.fileNames = w.fileNames := by
  rw [fileNames, restart, List.map_map]
  rfl

theorem findChunk_eq_empty (hno : ∀ name ∈ w.fileNames, ¬ names cid name = true) :
    w.findChunk cid = "" := by
  rw [findChunk]
  split
  · rfl
  · have hnone : w.readDir.find? (names cid) = none :=
      List.find?_eq_none.mpr fun name hname =>
        hno name ((List.mem_insertionSort (· ≤ ·)).mp hname)
    split
    · next hfound => cases hnone.symm.trans hfound
    · rfl

theorem Stored.findChunk_eq {r : ℕ} (h : w.Stored cid r) (hdb : w.core.dbpath ≠ "") :
    w.findChunk cid = w.core.chunksDir ++ Core.chunkName cid r :=
  (findChunk_eq_iff hdb).mpr ⟨⟨h.mem, names_chunkName cid r⟩,
    fun name hmem hname => (h.only name hmem hname).ge⟩

/-- The file of a name, in a directory with one file for each name. -/
theorem find?_of_mem {dir name : String} {f : File} : ∀ {files : List (String × File)},
    (files.map Prod.fst).Nodup → (name, f) ∈ files →
    files.find? (fun entry => decide (dir ++ entry.1 = dir ++ name)) = some (name, f)
  | entry :: files, hnodup, hmem => by
      rw [List.map_cons, List.nodup_cons] at hnodup
      rcases List.mem_cons.mp hmem with rfl | hmem
      · exact List.find?_cons_of_pos (decide_eq_true rfl)
      · rw [List.find?_cons_of_neg fun heq => ?_, find?_of_mem hnodup.2 hmem]
        have hname : entry.1 = name := (String.append_right_inj _).mp (of_decide_eq_true heq)
        exact hnodup.1 (hname ▸ List.mem_map_of_mem hmem)

/-- The file of a chunk whose turn has not come has the bytes that were left. -/
theorem Reopening.fileAt_eq {n : ℕ} {w₁ : World} (hr : Reopening size numChunks evs w D n w₁)
    (h : w.Keeps size numChunks evs D) {chunk : MetaChunk} {pm : PMap} {r : ℕ}
    (hget : w.core.chunks[n]? = some chunk) (hpm : chunk.pm = some pm)
    (hpath : pm.path = w.core.chunksDir ++ Core.chunkName n r)
    (hmem : Core.chunkName n r ∈ w.fileNames) :
    w₁.fileAt (w₁.core.chunksDir ++ Core.chunkName n r) = .ok pm.close := by
  have hnodup : w.restart.fileNames.Nodup := fileNames_restart (w := w) ▸ h.nodup
  have hnone : (w₁.core.chunks.findSome? fun chunk => chunk.pm.bind fun pm =>
      if pm.path = w₁.core.chunksDir ++ Core.chunkName n r then some pm.close
      else none) = none := by
    refine List.findSome?_eq_none_iff.mpr fun chunk' hmem' => ?_
    obtain ⟨i, hi⟩ := List.mem_iff_getElem?.mp hmem'
    rcases Nat.lt_or_ge i n with hlt | hge
    · have hshelf := hr.opened i hlt chunk' hi
      cases hD : D i with
      | none =>
        rw [hD] at hshelf
        rw [hshelf.2.1]
        rfl
      | some m =>
        rw [hD] at hshelf
        obtain ⟨-, pm', r', hpm', -, hpath', -⟩ := hshelf
        rw [hpm', Option.bind_some, if_neg]
        intro heq
        rw [hpath', String.append_right_inj] at heq
        exact hlt.ne (Core.chunkName_inj heq).1
    · rw [(hr.closed i hge chunk' hi).2]
      rfl
  rw [fileAt, hr.files_eq, find?_of_mem hnodup (h.mem_restart hget hpm hpath hmem)]
  dsimp only
  rw [bytesOf, hnone]
  rfl

/-- **One turn of `Open`** finds the file that was left of the chunk, or there is none. -/
theorem Reopening.turn (h : w.Keeps size numChunks evs D) (ho : PMap.Orderly size evs)
    (hsize : size ≤ 2 ^ 28) {n : ℕ} {w₁ : World} (hr : Reopening size numChunks evs w D n w₁)
    (hn : n < w.core.chunks.length) :
    (w₁.openChunk n).Ends (fun _ => w.Cramped size) (Reopening size numChunks evs w D (n + 1)) := by
  have hdb : w₁.core.dbpath ≠ "" := hr.dbpath_eq ▸ h.dbpath_ne
  have hdir : w₁.core.chunksDir = w.core.chunksDir := by
    rw [Core.chunksDir, Core.chunksDir, hr.dbpath_eq]
  have hnames : w₁.fileNames = w.fileNames :=
    (congrArg (List.map Prod.fst) hr.files_eq).trans fileNames_restart
  obtain ⟨chunk₀, hget₀⟩ : ∃ chunk, w.core.chunks[n]? = some chunk :=
    ⟨_, List.getElem?_eq_getElem hn⟩
  have hn₁ : n < w₁.core.chunks.length := hr.length_eq ▸ hn
  obtain ⟨chunk₁, hget₁⟩ : ∃ chunk, w₁.core.chunks[n]? = some chunk :=
    ⟨_, List.getElem?_eq_getElem hn₁⟩
  obtain ⟨hpres₁, hpm₁⟩ := hr.closed n le_rfl chunk₁ hget₁
  have hshelf := h.shelves n chunk₀ hget₀
  rw [openChunk]
  dsimp only
  cases hD : D n with
  | none =>
    rw [hD] at hshelf
    have hno : ∀ name ∈ w₁.fileNames, ¬ names n name = true := hnames ▸ hshelf.2.2
    rw [if_pos (findChunk_eq_empty hno)]
    refine ⟨hr.files_eq, hr.dbpath_eq, hr.size_eq, hr.length_eq, fun cid hcid chunk hget => ?_,
      fun cid hcid => hr.closed cid (by omega)⟩
    rcases Nat.lt_succ_iff_lt_or_eq.mp hcid with hlt | rfl
    · exact hr.opened cid hlt chunk hget
    · obtain rfl := Option.some.inj (hget₁.symm.trans hget)
      rw [hD]
      exact ⟨hpres₁, hpm₁, hno⟩
  | some m =>
    rw [hD] at hshelf
    obtain ⟨-, pm, r, hpm, hleads, hpath, hstored⟩ := hshelf
    have hstored₁ : w₁.Stored n r := ⟨hnames ▸ hstored.mem, hnames ▸ hstored.only⟩
    have hfind := hstored₁.findChunk_eq hdb
    have hne : w₁.core.chunksDir ++ Core.chunkName n r ≠ "" := by
      rw [Core.chunksDir]
      simp
    rw [hfind, if_neg hne, Core.chunk, hget₁, Call.ok_bind,
      hr.fileAt_eq h hget₀ hpm hpath hstored.mem, Call.ok_bind]
    have hcramped : ∀ f : Fault, _ → w.Cramped size := fun _ hc => ⟨n, chunk₀, pm, hget₀, hpm, hc⟩
    have hopen := ((hleads.reopen ho hsize (w₁.core.chunksDir ++ Core.chunkName n r)).mono
      hcramped fun _ h => h).and (PMap.path_open _ _)
    refine hopen.seq fun pm' hp => ?_
    obtain ⟨hleads', hpath'⟩ := hp
    refine ⟨hr.files_eq, hr.dbpath_eq, hr.size_eq, List.length_set.trans hr.length_eq,
      fun cid hcid chunk hget => ?_, fun cid hcid chunk hget => ?_⟩
    · rcases Nat.lt_succ_iff_lt_or_eq.mp hcid with hlt | rfl
      · refine (hr.opened cid hlt chunk ?_).frame rfl fun _ _ => Iff.rfl
        rwa [← List.getElem?_set_ne (Nat.ne_of_gt hlt)]
      · replace hget : (w₁.core.chunks.set cid _)[cid]? = some chunk := hget
        rw [List.getElem?_set_self hn₁] at hget
        rw [hD, ← Option.some.inj hget]
        exact ⟨rfl, pm', r, rfl, hleads', hpath', hstored₁.mem, hstored₁.only⟩
    · refine hr.closed cid (by omega) chunk ?_
      rwa [← List.getElem?_set_ne (by omega : n ≠ cid)]

/-- **What a process leaves, the next one finds**: it opens every chunk that was present, unless
one has fewer than four bytes left. -/
theorem Keeps.reboot (h : w.Keeps size numChunks evs D) (ho : PMap.Orderly size evs)
    (hsize : size ≤ 2 ^ 28) (hother : w.restart.OpensOther) :
    w.restart.openAll.Ends (fun _ => w.Cramped size) fun w' => w'.Keeps size numChunks evs D := by
  have hlen : w.restart.core.chunks.length = w.core.chunks.length := List.length_replicate ..
  have hturns : ∀ n ≤ w.core.chunks.length, ((List.range n).foldlM openChunk w.restart).Ends
      (fun _ => w.Cramped size) (Reopening size numChunks evs w D n) := by
    intro n hn
    induction n with
    | zero => exact reopening_zero
    | succ n ih =>
      rw [List.range_succ, List.foldlM_append]
      refine (ih (by omega)).seq fun w₁ hr => ?_
      exact (hr.turn h ho hsize hn).seq fun w₂ hr' => hr'
  have hall := hturns _ le_rfl
  rw [openAll, hlen]
  cases hx : (List.range w.core.chunks.length).foldlM openChunk w.restart with
  | error f => exact hall.of_error hx
  | ok w' =>
    have hr := hall.returns w' hx
    have hsteps : Steps w.restart .openAll w' := by
      rw [Steps, step, openAll, hlen, hx]
    have hrestart : Steps w .restart w.restart := rfl
    refine ⟨hr.dbpath_eq ▸ h.dbpath_ne, hr.size_eq.trans h.size_eq, hr.length_eq.trans h.length_eq,
      hsteps.clear h.dbpath_ne hother (hrestart.clear h.dbpath_ne trivial h.clear), ?_,
      fun cid chunk hget => hr.opened cid ?_ chunk hget⟩
    · have hnodup : w.restart.fileNames.Nodup := fileNames_restart (w := w) ▸ h.nodup
      rw [fileNames, hr.files_eq]
      exact hnodup
    · rw [← hr.length_eq]
      exact (List.getElem?_eq_some_iff.mp hget).1

/-! ## Runs -/

theorem keeps_new {dbpath : String} (hdb : dbpath ≠ "") (size numChunks : ℕ)
    (evs : List (Op × Option Error)) :
    Keeps size numChunks evs ⟨.new dbpath size numChunks, []⟩ fun _ => none where
  dbpath_ne := hdb
  size_eq := rfl
  length_eq := List.length_replicate ..
  clear := clear_new dbpath size numChunks
  nodup := List.nodup_nil
  shelves cid chunk hget := by
    rw [List.eq_of_mem_replicate (List.mem_of_getElem? hget)]
    exact ⟨rfl, rfl, fun _ hname => (by cases hname)⟩

/-- **One act.** -/
theorem Keeps.step (h : w.Keeps size numChunks evs D) (ho : PMap.Orderly size evs)
    (hsize : size ≤ 2 ^ 28) {act : Act} (hev : ∀ ev, act.asks = some ev → ev ∈ evs)
    (hs : w.Acts act w') : w'.Keeps size numChunks evs (D.step numChunks act) := by
  cases act with
  | request isSynced op e => exact (h.request ho hsize hev hs).2
  | setPresent cid => exact h.setPresent hs
  | setNoPresent cid => exact h.setNoPresent hs
  | setProtected cid => exact h.setProtected hs
  | defrag cid => exact h.defrag ho hsize hs
  | reboot => exact (h.reboot ho hsize hs.1).returns w' hs.2

/-- **What a `Get` shows.** -/
theorem Keeps.get_eq (h : w.Keeps size numChunks evs D) (hpos : 0 < numChunks) {key : Bytes}
    (hkey : 2 ≤ (fnv1a64 key).toUInt32) :
    w.core.get key = .ok (D.get (getChunkID key numChunks) key) := by
  have hindex : w.core.chunkIndex key = getChunkID key numChunks := by
    rw [Core.chunkIndex, h.length_eq]
  have hlt : getChunkID key numChunks < w.core.chunks.length := by
    rw [h.length_eq]
    exact Nat.mod_lt _ hpos
  obtain ⟨chunk, hget⟩ : ∃ chunk, w.core.chunks[getChunkID key numChunks]? = some chunk :=
    ⟨_, List.getElem?_eq_getElem hlt⟩
  have hshelf := h.shelves _ chunk hget
  rw [Core.get, hindex, Core.chunk, hget, Call.ok_bind, Shelf.get]
  cases hD : D (getChunkID key numChunks) with
  | none =>
    rw [hD] at hshelf
    rw [if_neg (by rw [hshelf.1]; exact Bool.false_ne_true)]
    rfl
  | some m =>
    rw [hD] at hshelf
    obtain ⟨hpres, pm, r, hpm, ⟨L, hlived, rfl⟩, -⟩ := hshelf
    rw [if_pos hpres, hpm, Core.deref, Call.ok_bind, hlived.get_eq hkey]
    rfl

/-- The requests that came to a `PMap`. -/
def asked (acts : List Act) : List (Op × Option Error) := acts.filterMap Act.asks

theorem keeps_run {dbpath : String} {acts : List Act} (hsize : size ≤ 2 ^ 28) (hdb : dbpath ≠ "")
    (ho : PMap.Orderly size evs) (hevs : ∀ ev ∈ asked acts, ev ∈ evs)
    (hrun : Run Acts ⟨.new dbpath size numChunks, []⟩ acts w) :
    w.Keeps size numChunks evs (acts.foldl (Shelf.step numChunks) fun _ => none) :=
  hrun.simulates_on (P := fun act => ∀ ev, act.asks = some ev → ev ∈ evs)
    (fun hev h hs => h.step ho hsize hev hs)
    (fun act hact ev hask => hevs ev (List.mem_filterMap.mpr ⟨act, hact, hask⟩))
    (keeps_new hdb size numChunks evs)

end Keeps

/-- **A database is kept.**  Over every run of orderly requests to chunks of at most 256 MiB, in
which chunks are made present and removed, protected and defragmented, and processes follow one
another in the directory, none of them finding a file of revision 1: every request is answered as
the reference says, unless there is no room for it, and every `Get` shows the pair of the reference.
Every chunk that is present can be defragmented, and another process can follow if four bytes are
left in every chunk. -/
theorem database_kept {size numChunks : ℕ} {dbpath : String} {acts : List Act} {w : World}
    (hsize : size ≤ 2 ^ 28) (hpos : 0 < numChunks) (hdb : dbpath ≠ "")
    (hrun : Run Acts ⟨.new dbpath size numChunks, []⟩ acts w)
    (ho : PMap.Orderly size (asked acts)) :
    (∀ pre isSynced op e post, acts = pre ++ .request isSynced op e :: post →
      e = Shelf.answer (pre.foldl (Shelf.step numChunks) fun _ => none)
          (getChunkID op.key numChunks) isSynced op
        ∨ e = some (.pmap .storeLimit))
    ∧ (∀ key, 2 ≤ (fnv1a64 key).toUInt32 → w.core.get key
      = .ok (Shelf.get (acts.foldl (Shelf.step numChunks) fun _ => none)
          (getChunkID key numChunks) key))
    ∧ (∀ cid chunk, w.core.chunk cid = .ok chunk → chunk.pm ≠ none →
      ∃ w', w.Acts (.defrag cid) w')
    ∧ (w.restart.OpensOther → ¬ w.Cramped size → ∃ w', w.Acts .reboot w') := by
  have h := keeps_run hsize hdb ho (fun _ hev => hev) hrun
  refine ⟨?_, fun key hkey => h.get_eq hpos hkey, fun cid chunk hchunk hpm => ?_, ?_⟩
  · rintro pre isSynced op e post rfl
    obtain ⟨w₁, hpre, hpost⟩ := hrun.split
    have hsub : ∀ ev ∈ asked pre, ev ∈ asked (pre ++ .request isSynced op e :: post) :=
      fun ev hev => by
        rw [asked, List.filterMap_append]
        exact List.mem_append_left _ hev
    cases hpost with
    | cons hs _ =>
      refine ((keeps_run hsize hdb ho hsub hpre).request ho hsize (fun ev hask => ?_) hs).1
      exact List.mem_filterMap.mpr
        ⟨_, List.mem_append_right _ List.mem_cons_self, hask⟩
  · obtain ⟨w', hs, -⟩ := h.exists_defrag ho hsize hchunk hpm
    exact ⟨w', hs⟩
  · intro hother hroom
    have hends := h.reboot ho hsize hother
    cases hx : w.restart.openAll with
    | error f => exact absurd (hends.of_error hx) hroom
    | ok w' => exact ⟨w', hother, hx⟩

/-- The world after an act that meets no fault. -/
def perform (w : World) : Act → Option World
  | .request isSynced op e =>
    if op.Timed then
      (w.core.request isSynced op).toOption.bind fun r =>
        if r.1 = e then some { w with core := r.2 } else none
    else none
  | .setPresent cid => w.next (.setPresent cid)
  | .setNoPresent cid => w.next (.setNoPresent cid)
  | .setProtected cid => w.next (.setProtected cid)
  | .defrag cid => w.next (.defrag cid)
  | .reboot => if w.restart.OpensOther then w.restart.next .openAll else none

theorem acts_of_perform {w w' : World} {act : Act} (h : w.perform act = some w') :
    w.Acts act w' := by
  cases act with
  | request isSynced op e =>
    rw [perform] at h
    split at h
    · next htimed =>
      obtain ⟨⟨e', core⟩, hr, hx⟩ := Option.bind_eq_some_iff.mp h
      dsimp only at hx
      split at hx
      · next he =>
        exact ⟨htimed, core, he ▸ Call.eq_ok_of_toOption hr, (Option.some.inj hx).symm⟩
      · cases hx
    · cases h
  | setPresent cid => exact steps_of_next h
  | setNoPresent cid => exact steps_of_next h
  | setProtected cid => exact steps_of_next h
  | defrag cid => exact steps_of_next h
  | reboot =>
    rw [perform] at h
    split at h
    · next hother => exact ⟨hother, steps_of_next h⟩
    · cases h

/-- A pair that is set, in a chunk that is defragmented twice, and found by the next process. -/
theorem database_kept_restart : ∃ w, Run Acts ⟨.new "db" 64 1, []⟩
      [.setPresent 0, .request (fun _ => true) (.set [1] (PMap.stamped 900000000000 [7])) none,
        .defrag 0, .defrag 0, .reboot] w
    ∧ w.core.get [1] = .ok (.ok (some (PMap.stamped 900000000000 [7]))) := by
  have hobs : (List.foldlM perform ⟨.new "db" 64 1, []⟩ [.setPresent 0,
      .request (fun _ => true) (.set [1] (PMap.stamped 900000000000 [7])) none, .defrag 0,
      .defrag 0, .reboot]).map (fun w => w.files.map Prod.fst) = some ["0_rev2"] := by
    decide +kernel
  obtain ⟨w, hw, -⟩ := Option.map_eq_some_iff.mp hobs
  have hrun := (Run.of_foldlM hw).mono acts_of_perform
  have ho : PMap.Orderly 64 [(.set [1] (PMap.stamped 900000000000 [7]), none)] :=
    ⟨by decide +kernel, by decide +kernel, by decide +kernel, fun ev hev _ =>
      ⟨_, _, congrArg Prod.fst (List.mem_singleton.mp hev)⟩⟩
  refine ⟨w, hrun, ?_⟩
  rw [(database_kept (by decide) (by decide) (by decide) hrun ho).2.1 [1] (by decide +kernel)]
  decide +kernel

end World

end Treeless
