import Treeless.Core.Core
import Treeless.Machinery.Run
import Mathlib

/-!
# Core/Revision — the file a defragmentation writes to

`pmap.New` truncates its file, so the next revision of a chunk must not be the file the chunk is
stored in.  What matters of a core is its *backing*: of each chunk the revision and the path.

* a defragmentation stores revision `r + 1` in file `r + 1`;
* `ChunkSetPresent` stores any revision in file `0`;
* `Open` stores revision `r` (in a new process `0`) in whatever file it found.

Only the last can put a chunk into the file of its next revision.
-/

namespace Treeless

namespace Core

variable {c : Core} {cid : ℕ}

/-- The paths of a chunk's revisions are distinct. -/
theorem chunkPath_inj (h : c.dbpath ≠ "") {r r' : ℕ}
    (heq : c.chunkPath cid r = c.chunkPath cid r') : r = r' := by
  rw [chunkPath, chunkPath, if_neg h, if_neg h, String.append_right_inj, chunkName, chunkName,
    String.append_right_inj] at heq
  exact Nat.repr_inj.mp heq

theorem chunkPath_ne_empty (h : c.dbpath ≠ "") (r : ℕ) : c.chunkPath cid r ≠ "" := by
  rw [chunkPath, if_neg h, chunksDir]
  simp [h]

/-- **The next revision of a chunk is not the file the chunk is stored in.** -/
def Clear (c : Core) : Prop :=
  ∀ cid chunk pm, c.chunks[cid]? = some chunk → chunk.pm = some pm →
    c.chunkPath cid (chunk.revision + 1) ≠ pm.path

/-- The revision of each chunk, and the path it is stored in. -/
def backing (c : Core) : ℕ → Option (ℕ × Option String) :=
  c.view fun chunk => (chunk.revision, chunk.pm.map PMap.path)

theorem backing_of_chunk {chunk : MetaChunk} (h : c.chunk cid = .ok chunk) :
    c.backing cid = some (chunk.revision, chunk.pm.map PMap.path) := view_of_chunk h

theorem backing_setChunk {chunk₀ : MetaChunk} (h : c.chunk cid = .ok chunk₀) (chunk : MetaChunk) :
    (c.setChunk cid chunk).backing
      = Function.update c.backing cid (some (chunk.revision, chunk.pm.map PMap.path)) :=
  view_setChunk _ h chunk

/-- A chunk that stays at its revision and path leaves the backing as it is. -/
theorem backing_setChunk_same {chunk₀ chunk : MetaChunk} (h : c.chunk cid = .ok chunk₀)
    (hrev : chunk.revision = chunk₀.revision)
    (hpath : chunk.pm.map PMap.path = chunk₀.pm.map PMap.path) :
    (c.setChunk cid chunk).backing = c.backing := by
  rw [backing_setChunk h, hrev, hpath, ← backing_of_chunk h, Function.update_eq_self]

theorem clear_iff : c.Clear ↔ ∀ cid r path, c.backing cid = some (r, some path) →
    c.chunkPath cid (r + 1) ≠ path := by
  constructor
  · intro h cid r path hb
    obtain ⟨chunk, hget, heq⟩ := Option.map_eq_some_iff.mp hb
    obtain ⟨rfl, hpath⟩ := Prod.mk.inj heq
    obtain ⟨pm, hpm, rfl⟩ := Option.map_eq_some_iff.mp hpath
    exact h cid chunk pm hget hpm
  · intro h cid chunk pm hget hpm
    refine h cid chunk.revision pm.path ?_
    rw [backing, view, hget, Option.map_some, hpm]
    rfl

end Core

/-! ## What an event does to the backing -/

namespace World

/-- The backing after an event. -/
inductive Shift (w : World) : Event → (ℕ → Option (ℕ × Option String)) → Prop
  | keep {ev : Event} (h : ev ≠ .openAll) : Shift w ev w.core.backing
  | present (cid r : ℕ) : Shift w (.setPresent cid)
      (Function.update w.core.backing cid (some (r, some (w.core.chunkPath cid 0))))
  | absent (cid r : ℕ) : Shift w (.setNoPresent cid)
      (Function.update w.core.backing cid (some (r, none)))
  | defrag (cid r : ℕ) : Shift w (.defrag cid)
      (Function.update w.core.backing cid (some (r + 1, some (w.core.chunkPath cid (r + 1)))))
  | opened : Shift w .openAll fun cid => (w.core.backing cid).map fun b =>
      (b.1, if w.findChunk cid = "" then b.2 else some (w.findChunk cid))
  | restart : Shift w .restart fun cid => (w.core.backing cid).map fun _ => (0, none)

theorem Shift.of_eq {w : World} {ev : Event} {B B' : ℕ → Option (ℕ × Option String)}
    (h : Shift w ev B) (heq : B' = B) : Shift w ev B' := heq ▸ h

variable (w : World)

/-- A request stays in the files. -/
theorem backing_request (isSynced : ℕ → Bool) (op : Op) :
    (w.core.request isSynced op).Returns fun r =>
      r.2.dbpath = w.core.dbpath ∧ r.2.backing = w.core.backing := by
  intro r h
  rcases Core.request_cases h with heq | ⟨chunk, pm, e, pm', hchunk, hpm, happly, heq⟩ <;> rw [heq]
  · exact ⟨rfl, rfl⟩
  · refine ⟨rfl, Core.backing_setChunk_same hchunk rfl ?_⟩
    have hpath : pm'.path = pm.path := by
      cases op with
      | set k v => exact pm.stays_set _ k v _ happly
      | cas k v => exact pm.stays_cas _ k v _ happly
      | del k v => exact pm.stays_del _ k v _ happly
    rw [hpm]
    exact congrArg some hpath

theorem backing_chunkSetProtected (cid : ℕ) :
    (w.core.chunkSetProtected cid).Returns fun r =>
      r.2.dbpath = w.core.dbpath ∧ r.2.backing = w.core.backing := by
  intro r h
  obtain ⟨chunk, hchunk, h⟩ := Call.bind_eq_ok.mp h
  split at h
  · cases h
    exact ⟨rfl, rfl⟩
  · cases h
    exact ⟨rfl, Core.backing_setChunk_same hchunk rfl rfl⟩

/-- The event has moved the backing, in the same directory. -/
abbrev Moves (ev : Event) (w' : World) : Prop :=
  w'.core.dbpath = w.core.dbpath ∧ Shift w ev w'.core.backing

theorem moves_chunkSetPresent (cid : ℕ) :
    (w.chunkSetPresent cid).Returns (w.Moves (.setPresent cid)) := by
  intro w' h
  obtain ⟨chunk, hchunk, h⟩ := Call.bind_eq_ok.mp h
  split at h
  · cases h
    exact ⟨rfl, .keep nofun⟩
  · cases h
    exact ⟨rfl, (Shift.present cid chunk.revision).of_eq (Core.backing_setChunk hchunk { chunk with
      pm := some (PMap.new (w.core.chunkPath cid 0) w.core.chunkSize), present := true })⟩

theorem moves_chunkSetNoPresent (cid : ℕ) :
    (w.chunkSetNoPresent cid).Returns (w.Moves (.setNoPresent cid)) := by
  intro w' h
  obtain ⟨chunk, hchunk, h⟩ := Call.bind_eq_ok.mp h
  split at h
  · obtain ⟨pm, -, h⟩ := Call.bind_eq_ok.mp h
    cases h
    exact ⟨rfl, (Shift.absent cid chunk.revision).of_eq (Core.backing_setChunk hchunk { chunk with
      toFlags := chunk.setNoPresent, pm := none })⟩
  · cases h
    exact ⟨rfl, .keep nofun⟩

/-- **The defragmented chunk is stored in the file of its revision.** -/
theorem path_defragment (old : PMap) (path : String) (size : ℕ) :
    (old.defragment path size).Returns fun pm => pm.path = path := by
  refine old.returns_iterateFrom (fun new key value hnew => ?_) _ _ rfl
  refine (new.stays_set _ key value).seq fun r hr => ?_
  dsimp only
  split
  · exact .ok (hr.trans hnew)
  · exact .fault _

theorem moves_defrag (cid : ℕ) : (w.defrag cid).Returns (w.Moves (.defrag cid)) := by
  intro w' h
  obtain ⟨chunk, hchunk, h⟩ := Call.bind_eq_ok.mp h
  obtain ⟨old, -, h⟩ := Call.bind_eq_ok.mp h
  obtain ⟨pm, hpm, h⟩ := Call.bind_eq_ok.mp h
  cases h
  refine ⟨rfl, (Shift.defrag cid chunk.revision).of_eq ?_⟩
  rw [← path_defragment _ _ _ _ hpm]
  exact Core.backing_setChunk hchunk { chunk with pm := some pm, revision := chunk.revision + 1 }

/-! ## `Open` -/

variable {w}

theorem findChunk_congr {w' : World} (hfiles : w'.files = w.files)
    (hpath : w'.core.dbpath = w.core.dbpath) (cid : ℕ) : w'.findChunk cid = w.findChunk cid := by
  rw [findChunk, findChunk, readDir, readDir, Core.chunksDir, Core.chunksDir, hfiles, hpath]

/-- The world after the turns of `Open` for the chunks below `n`. -/
structure Opened (w : World) (n : ℕ) (w' : World) : Prop where
  files_eq : w'.files = w.files
  dbpath_eq : w'.core.dbpath = w.core.dbpath
  backing_eq : ∀ cid, w'.core.backing cid = (w.core.backing cid).map fun b =>
    (b.1, if cid < n ∧ w.findChunk cid ≠ "" then some (w.findChunk cid) else b.2)

theorem opened_zero (w : World) : Opened w 0 w :=
  ⟨rfl, rfl, fun cid => by simp⟩

/-- **One turn of `Open`.** -/
theorem Opened.openChunk {n : ℕ} {w₁ : World} (h : Opened w n w₁) :
    (w₁.openChunk n).Returns (Opened w (n + 1)) := by
  intro w₂ hx
  have hfind := findChunk_congr h.files_eq h.dbpath_eq
  rw [World.openChunk, hfind] at hx
  -- the other chunks keep their files
  have hother : ∀ cid ≠ n,
      (cid < n + 1 ∧ w.findChunk cid ≠ "") = (cid < n ∧ w.findChunk cid ≠ "") :=
    fun cid hne => by
      have : cid < n + 1 ↔ cid < n := by omega
      rw [this]
  dsimp only at hx
  split at hx
  · next hnone =>
    cases hx
    refine ⟨h.files_eq, h.dbpath_eq, fun cid => ?_⟩
    rw [h.backing_eq]
    by_cases hcid : cid = n
    · subst hcid
      simp [hnone]
    · simp only [hother cid hcid]
  · next hsome =>
    obtain ⟨chunk, hchunk, hx⟩ := Call.bind_eq_ok.mp hx
    obtain ⟨file, -, hx⟩ := Call.bind_eq_ok.mp hx
    obtain ⟨pm, hpm, hx⟩ := Call.bind_eq_ok.mp hx
    cases hx
    refine ⟨h.files_eq, h.dbpath_eq, fun cid => ?_⟩
    rw [Core.backing_setChunk hchunk]
    by_cases hcid : cid = n
    · subst hcid
      have hb := h.backing_eq cid
      rw [Core.backing_of_chunk hchunk] at hb
      obtain ⟨b, hb₀, hb⟩ := Option.map_eq_some_iff.mp hb.symm
      simp only [Function.update_self, hb₀, Option.map_some]
      rw [if_pos ⟨Nat.lt_succ_self cid, hsome⟩, PMap.path_open _ _ _ hpm, (Prod.mk.inj hb).1]
    · rw [Function.update_of_ne hcid, h.backing_eq]
      simp only [hother cid hcid]

theorem opened_range (w : World) (n : ℕ) :
    ((List.range n).foldlM World.openChunk w).Returns (Opened w n) := by
  induction n with
  | zero => exact .ok (opened_zero w)
  | succ n ih =>
    rw [List.range_succ, List.foldlM_append]
    exact ih.seq fun w₁ h => h.openChunk.seq fun w₂ h' => .ok h'

theorem moves_openAll (w : World) : w.openAll.Returns (w.Moves .openAll) := by
  intro w' hx
  have h := opened_range w _ _ hx
  refine ⟨h.dbpath_eq, ?_⟩
  refine Shift.opened.of_eq (funext fun cid => ?_)
  rw [h.backing_eq]
  rcases Nat.lt_or_ge cid w.core.chunks.length with hlt | hge
  · by_cases hfind : w.findChunk cid = "" <;> simp [hlt, hfind]
  · have hnone : w.core.backing cid = none := by
      rw [Core.backing, Core.view, List.getElem?_eq_none hge]
      rfl
    rw [hnone]
    rfl

/-- **What an event does**: the backing moves, in the same directory. -/
theorem Steps.moves {ev : Event} {w' : World} (h : Steps w ev w') : w.Moves ev w' := by
  cases ev with
  | request isSynced op =>
    obtain ⟨r, hr, h⟩ := Call.bind_eq_ok.mp h
    cases h
    obtain ⟨hpath, hb⟩ := w.backing_request isSynced op r hr
    exact ⟨hpath, .of_eq (.keep nofun) hb⟩
  | openAll => exact moves_openAll w w' h
  | setPresent cid => exact w.moves_chunkSetPresent cid w' h
  | setNoPresent cid => exact w.moves_chunkSetNoPresent cid w' h
  | setProtected cid =>
    obtain ⟨r, hr, h⟩ := Call.bind_eq_ok.mp h
    cases h
    obtain ⟨hpath, hb⟩ := w.backing_chunkSetProtected cid r hr
    exact ⟨hpath, .of_eq (.keep nofun) hb⟩
  | defrag cid => exact w.moves_defrag cid w' h
  | restart =>
    cases h
    refine ⟨rfl, Shift.restart.of_eq (funext fun cid => ?_)⟩
    rw [restart, Core.backing, Core.view, Core.new, List.getElem?_replicate, Core.backing,
      Core.view]
    split
    · next hlt =>
      rw [List.getElem?_eq_getElem hlt]
      rfl
    · next hge =>
      rw [List.getElem?_eq_none (not_lt.mp hge)]
      rfl

/-! ## The invariant -/

/-- `Open` finds for no chunk the file of its next revision. -/
def OpensOther (w : World) : Prop :=
  ∀ cid chunk, w.core.chunks[cid]? = some chunk →
    w.findChunk cid ≠ w.core.chunkPath cid (chunk.revision + 1)

instance (w : World) : Decidable w.OpensOther :=
  decidable_of_iff (∀ cid < w.core.chunks.length, ∀ chunk ∈ w.core.chunks[cid]?,
    w.findChunk cid ≠ w.core.chunkPath cid (chunk.revision + 1))
    ⟨fun h cid chunk hget => h cid (List.getElem?_eq_some_iff.mp hget).1 chunk hget,
      fun h cid _ chunk hget => h cid chunk hget⟩

/-- The event is no `Open` that finds the file of a next revision. -/
def Heeds (w : World) : Event → Prop
  | .openAll => w.OpensOther
  | _ => True

instance (w : World) : ∀ ev, Decidable (w.Heeds ev)
  | .openAll => inferInstanceAs (Decidable w.OpensOther)
  | .request _ _ | .setPresent _ | .setNoPresent _ | .setProtected _ | .defrag _ | .restart =>
    inferInstanceAs (Decidable True)

/-- An event that heeds. -/
def HeedfulStep (w : World) (ev : Event) (w' : World) : Prop := Steps w ev w' ∧ w.Heeds ev

theorem chunkPath_congr {c c' : Core} (h : c'.dbpath = c.dbpath) : c'.chunkPath = c.chunkPath := by
  funext cid r
  rw [Core.chunkPath, Core.chunkPath, Core.chunksDir, Core.chunksDir, h]

/-- **Every event that heeds keeps the next revisions clear.** -/
theorem Steps.clear {ev : Event} {w' : World} (h : Steps w ev w') (hpath : w.core.dbpath ≠ "")
    (hheeds : w.Heeds ev) (hclear : w.core.Clear) : w'.core.Clear := by
  obtain ⟨hdb, hshift⟩ := h.moves
  rw [Core.clear_iff] at hclear ⊢
  rw [chunkPath_congr hdb]
  generalize w'.core.backing = B at hshift
  intro cid r path hb
  -- the chunk the event is about, or another one
  have hupdate : ∀ {i r' : ℕ} {p : Option String},
      Function.update w.core.backing i (some (r', p)) cid = some (r, some path) →
      (cid = i ∧ r' = r ∧ p = some path) ∨ w.core.backing cid = some (r, some path) := by
    intro i r' p hupd
    by_cases hi : cid = i
    · subst hi
      rw [Function.update_self] at hupd
      obtain ⟨hr, hp⟩ := Prod.mk.inj (Option.some.inj hupd)
      exact Or.inl ⟨rfl, hr, hp⟩
    · rw [Function.update_of_ne hi] at hupd
      exact Or.inr hupd
  cases hshift with
  | keep _ => exact hclear cid r path hb
  | present i r' =>
    rcases hupdate hb with ⟨rfl, -, hp⟩ | hb
    · rw [← Option.some.inj hp]
      exact fun heq => absurd (Core.chunkPath_inj hpath heq) (Nat.succ_ne_zero r)
    · exact hclear cid r path hb
  | absent i r' =>
    rcases hupdate hb with ⟨rfl, -, hp⟩ | hb
    · cases hp
    · exact hclear cid r path hb
  | defrag i r' =>
    rcases hupdate hb with ⟨rfl, rfl, hp⟩ | hb
    · rw [← Option.some.inj hp]
      exact fun heq => absurd (Core.chunkPath_inj hpath heq) (Nat.succ_ne_self _)
    · exact hclear cid r path hb
  | opened =>
    obtain ⟨⟨r₀, p₀⟩, hb₀, heq⟩ := Option.map_eq_some_iff.mp hb
    obtain ⟨rfl, hp⟩ := Prod.mk.inj heq
    dsimp only at hp
    split at hp
    · rw [hp] at hb₀
      exact hclear cid r₀ path hb₀
    · obtain ⟨chunk, hget, hrev⟩ := Option.map_eq_some_iff.mp hb₀
      obtain ⟨rfl, -⟩ := Prod.mk.inj hrev
      rw [← Option.some.inj hp]
      exact (hheeds cid chunk hget).symm
  | restart =>
    obtain ⟨b, -, heq⟩ := Option.map_eq_some_iff.mp hb
    cases heq

/-- An `Open` that finds the file of a next revision leaves a chunk there. -/
theorem opensOther_of_clear {w' : World} (h : Steps w .openAll w') (hpath : w.core.dbpath ≠ "")
    (hclear : w'.core.Clear) : w.OpensOther := by
  obtain ⟨hdb, hshift⟩ := h.moves
  rw [Core.clear_iff, chunkPath_congr hdb] at hclear
  generalize w'.core.backing = B at hshift hclear
  intro cid chunk hget heq
  have hfind : w.findChunk cid ≠ "" := heq ▸ Core.chunkPath_ne_empty hpath _
  cases hshift with
  | keep hne => exact hne rfl
  | opened =>
    refine hclear cid chunk.revision (w.findChunk cid) ?_ heq.symm
    simp only [Core.backing, Core.view, hget, Option.map_some, if_neg hfind]

theorem clear_new (dbpath : String) (chunkSize numChunks : ℕ) :
    (Core.new dbpath chunkSize numChunks).Clear := by
  intro cid chunk pm hget hpm
  rw [Core.new, List.getElem?_replicate] at hget
  split at hget
  · cases hget
    cases hpm
  · cases hget

/-- **When a new revision is not the live file.**  Along every run of a core in a directory, on
whatever files were there, in which no `Open` finds the file of a chunk's next revision, the path of
the next revision is never the path of the chunk.  An `Open` that finds one breaks this. -/
theorem next_revision_clear {dbpath : String} (hpath : dbpath ≠ "") {chunkSize numChunks : ℕ}
    {files : List (String × File)} {evs : List Event} {w : World}
    (hrun : Run HeedfulStep ⟨.new dbpath chunkSize numChunks, files⟩ evs w) :
    w.core.Clear ∧ ∀ w', Steps w .openAll w' → (w'.core.Clear ↔ w.OpensOther) := by
  obtain ⟨hclear, hdb⟩ := hrun.invariant (I := fun w => w.core.Clear ∧ w.core.dbpath ≠ "")
    (fun hP hs => ⟨hs.1.clear hP.2 hs.2 hP.1, hs.1.moves.1.symm ▸ hP.2⟩)
    ⟨clear_new dbpath chunkSize numChunks, hpath⟩
  exact ⟨hclear, fun w' h => ⟨opensOther_of_clear h hdb, fun ho => h.clear hdb ho hclear⟩⟩

/-- The world after an event that meets no fault. -/
def next (w : World) (ev : Event) : Option World := (w.step ev).toOption

theorem steps_of_next {ev : Event} {w' : World} (h : w.next ev = some w') : Steps w ev w' := by
  rw [next] at h
  rw [Steps]
  cases hx : w.step ev with
  | error f => rw [hx] at h; cases h
  | ok w₁ => rw [hx] at h; rw [Option.some.inj h]

/-- A core that is defragmented, and another process that opens what it left and defragments again:
it finds revision 2 and goes on with revision 1. -/
theorem next_revision_clear_restart : ∃ w,
    Run HeedfulStep ⟨.new "db" 64 1, []⟩ [.setPresent 0, .defrag 0, .defrag 0, .restart, .openAll,
      .defrag 0] w ∧ w.core.Clear := by
  have hobs : (List.foldlM (fun (w : World) ev => if w.Heeds ev then w.next ev else none)
      ⟨.new "db" 64 1, []⟩ [.setPresent 0, .defrag 0, .defrag 0, .restart, .openAll, .defrag 0]).map
      (fun w => w.files.map Prod.fst) = some ["0_rev1"] := by
    decide +kernel
  obtain ⟨w, hw, -⟩ := Option.map_eq_some_iff.mp hobs
  have hrun : Run HeedfulStep _ _ w := (Run.of_foldlM hw).mono fun {w ev w'} h => by
    split at h
    · next hheeds => exact ⟨steps_of_next h, hheeds⟩
    · cases h
  exact ⟨w, hrun, (next_revision_clear (by decide) hrun).1⟩

/-- A process that sets a pair and defragments, and another one that opens what it left. -/
def openedRevision : List Event :=
  [.setPresent 0, .request (fun _ => true) (.set [1] (PMap.stamped 5 [7])), .defrag 0, .restart,
    .openAll]

/-- The next revision of a chunk that was opened from revision 1 is the live file, and the next
defragmentation loses the pair. -/
theorem next_revision_live : ∃ w w' chunk pm, Run Steps ⟨.new "db" 64 1, []⟩ openedRevision w
    ∧ w.core.chunks[0]? = some chunk ∧ chunk.pm = some pm
    ∧ w.core.chunkPath 0 (chunk.revision + 1) = pm.path
    ∧ w.core.get [1] = .ok (.ok (some (PMap.stamped 5 [7])))
    ∧ Steps w (.defrag 0) w' ∧ w'.core.get [1] = .ok (.ok none) := by
  have hlive : (openedRevision.foldlM next ⟨.new "db" 64 1, []⟩).map
      (fun w => (w.core.backing 0, w.core.chunkPath 0 1))
      = some (some (0, some "db/chunks/0_rev1"), "db/chunks/0_rev1") := by decide +kernel
  have hbefore : (openedRevision.foldlM next ⟨.new "db" 64 1, []⟩).map (fun w => w.core.get [1])
      = some (.ok (.ok (some (PMap.stamped 5 [7])))) := by decide +kernel
  have hafter : (openedRevision.foldlM next ⟨.new "db" 64 1, []⟩).bind
      (fun w => (w.next (.defrag 0)).map fun w' => w'.core.get [1])
      = some (.ok (.ok none)) := by decide +kernel
  obtain ⟨w, hw, hlive⟩ := Option.map_eq_some_iff.mp hlive
  obtain ⟨hback, hnext⟩ := Prod.mk.inj hlive
  obtain ⟨chunk, hget, heq⟩ := Option.map_eq_some_iff.mp hback
  obtain ⟨hrev, hpath⟩ := Prod.mk.inj heq
  obtain ⟨pm, hpm, hpath⟩ := Option.map_eq_some_iff.mp hpath
  rw [hw] at hbefore hafter
  obtain ⟨w', hw', hafter⟩ := Option.map_eq_some_iff.mp hafter
  exact ⟨w, w', chunk, pm, (Run.of_foldlM hw).mono steps_of_next, hget, hpm,
    by rw [hrev, hnext, hpath], Option.some.inj hbefore, steps_of_next hw', hafter⟩

end World

end Treeless
