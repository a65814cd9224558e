import Treeless.Com.Heartbeat
import Treeless.Core.Revision
import Treeless.Machinery.Guard
import Treeless.PMap.Windows

/-!
# Core/Count — the number of present chunks

A core caches in `knownChunks` how many of its chunks are present, and `PresentChunksList` allocates
that many entries.  The `drift` is what the cached number has in excess:

    ChunkSetPresent     +1 cached, +1 present
    ChunkSetNoPresent   -1 cached, -1 present
    Open                            +1 present for each chunk found that was not

So the drift of a new core is only ever changed by `Open` (`Opening.drift_eq`), and it goes down.
-/

namespace Treeless

namespace Core

variable (c : Core)

/-- The number of chunks whose present flag is set. -/
def presentCount : ℕ := c.chunks.countP fun chunk => chunk.present

/-- What the cached number of present chunks has in excess. -/
def drift : ℤ := c.knownChunks - c.presentCount

/-- Every chunk that is present has a `PMap`. -/
def Filled : Prop := ∀ chunk ∈ c.chunks, chunk.present = true → chunk.pm ≠ none

/-! ## Getters -/

/-- The number of present chunks, as it is cached. -/
def presentChunks : ℤ := c.knownChunks

/-- One turn of `PresentChunksList`: a chunk that is present is listed with its checksum. -/
def listChunk (now : ℕ → Time) : List KnownChunk × Core → ℕ → Call (List KnownChunk × Core)
  | (list, c), id => do
    let chunk ← c.chunk id
    if chunk.present then
      let pm ← deref chunk.pm
      let (sum, checksum) := pm.checksum.checksum (now id)
      return (list ++ [⟨id, sum⟩], c.setChunk id { chunk with pm := some { pm with checksum } })
    else return (list, c)

/-- The list of present chunks.  A slice of negative capacity cannot be made. -/
def presentChunksList (now : ℕ → Time) : Call (List KnownChunk × Core) :=
  if c.knownChunks < 0 then .error .panic
  else (List.range c.chunks.length).foldlM (listChunk now) ([], c)

variable {c}

theorem getElem?_of_chunk {cid : ℕ} {chunk : MetaChunk} (h : c.chunk cid = .ok chunk) :
    c.chunks[cid]? = some chunk := by
  rw [Core.chunk] at h
  split at h
  · next hget => rw [hget, Except.ok.inj h]
  · cases h

/-- **Replacing a chunk** moves the drift by the difference of the two flags. -/
theorem drift_setChunk {cid : ℕ} {chunk₀ : MetaChunk} (h : c.chunk cid = .ok chunk₀)
    (chunk : MetaChunk) : (c.setChunk cid chunk).drift + chunk.present.toNat
      = c.drift + chunk₀.present.toNat := by
  obtain ⟨hlt, hget⟩ := List.getElem?_eq_some_iff.mp (getElem?_of_chunk h)
  have hpos : chunk₀.present = true → 0 < c.presentCount := fun hpres =>
    List.countP_pos_iff.mpr ⟨chunk₀, hget ▸ List.getElem_mem hlt, hpres⟩
  have hcount : (c.setChunk cid chunk).presentCount
      = c.presentCount - (if chunk₀.present then 1 else 0) + if chunk.present then 1 else 0 := by
    rw [presentCount, setChunk, List.countP_set hlt, hget]
    rfl
  rw [drift, drift, hcount]
  change c.knownChunks - _ + _ = _
  cases hnew : chunk.present <;> cases hold : chunk₀.present <;> simp [hold] at hpos ⊢ <;> omega

theorem drift_new (dbpath : String) (chunkSize numChunks : ℕ) :
    (new dbpath chunkSize numChunks).drift = 0 := by
  have hcount : (new dbpath chunkSize numChunks).presentCount = 0 := by
    rw [presentCount, new, List.countP_replicate]
    rfl
  rw [drift, hcount]
  rfl

theorem filled_new (dbpath : String) (chunkSize numChunks : ℕ) :
    (new dbpath chunkSize numChunks).Filled := fun chunk hmem hpres => by
  obtain rfl := List.eq_of_mem_replicate hmem
  exact absurd hpres Bool.false_ne_true

theorem Filled.setChunk (h : c.Filled) {cid : ℕ} {chunk : MetaChunk}
    (hchunk : chunk.present = true → chunk.pm ≠ none) : (c.setChunk cid chunk).Filled := by
  intro other hmem
  rcases List.mem_or_eq_of_mem_set hmem with hmem | rfl
  · exact h other hmem
  · exact hchunk

/-- The step changed neither the drift nor the number of chunks, and dropped no `PMap` of a chunk
that is present. -/
structure Counts (c c' : Core) : Prop where
  drift_eq : c'.drift = c.drift
  filled : c.Filled → c'.Filled
  length_eq : c'.chunks.length = c.chunks.length

theorem Counts.rfl : c.Counts c := ⟨Eq.refl _, id, Eq.refl _⟩

/-- A chunk is replaced by one with the same flag. -/
theorem counts_setChunk {cid : ℕ} {chunk₀ : MetaChunk} (h : c.chunk cid = .ok chunk₀)
    (chunk : MetaChunk) (hpres : chunk.present = chunk₀.present)
    (hpm : chunk₀.pm ≠ none → chunk.pm ≠ none) :
    c.Counts (c.setChunk cid chunk) where
  drift_eq := by
    have hdrift := drift_setChunk h chunk
    rw [hpres] at hdrift
    exact add_right_cancel hdrift
  filled hf := hf.setChunk fun hp =>
    hpm (hf chunk₀ (List.mem_of_getElem? (getElem?_of_chunk h)) (hpres ▸ hp))
  length_eq := List.length_set

/-- A chunk is replaced, and the cached number follows its flag. -/
theorem counts_adjust {cid : ℕ} {chunk₀ : MetaChunk} (h : c.chunk cid = .ok chunk₀)
    (chunk : MetaChunk) {n : ℤ}
    (hn : n + chunk₀.present.toNat = c.knownChunks + chunk.present.toNat)
    (hpm : chunk.present = true → chunk.pm ≠ none) :
    c.Counts { c.setChunk cid chunk with knownChunks := n } where
  drift_eq := by
    have hdrift := drift_setChunk h chunk
    have hknown : (c.setChunk cid chunk).knownChunks = c.knownChunks := rfl
    change n - ((c.setChunk cid chunk).presentCount : ℤ) = c.drift
    rw [drift, hknown] at hdrift
    omega
  filled hf := hf.setChunk hpm
  length_eq := List.length_set

end Core

namespace World

variable {w : World}

theorem counts_request (isSynced : ℕ → Bool) (op : Op) :
    (w.core.request isSynced op).Returns fun r => w.core.Counts r.2 := by
  intro r h
  rcases Core.request_cases h with heq | ⟨chunk, pm, e, pm', hchunk, -, -, heq⟩ <;> rw [heq]
  · exact .rfl
  · exact Core.counts_setChunk hchunk _ rfl fun _ => Option.some_ne_none pm'

theorem counts_chunkSetProtected (cid : ℕ) :
    (w.core.chunkSetProtected cid).Returns fun r => w.core.Counts r.2 := by
  intro r h
  obtain ⟨chunk, hchunk, h⟩ := Call.bind_eq_ok.mp h
  split at h
  · cases h
    exact .rfl
  · next flags hflags =>
    cases h
    refine Core.counts_setChunk hchunk _ ?_ id
    rw [Flags.setProtected] at hflags
    split at hflags
    · next hpres => rw [← Option.some.inj hflags]
    · cases hflags

theorem counts_chunkSetPresent (cid : ℕ) :
    (w.chunkSetPresent cid).Returns fun w' => w.core.Counts w'.core := by
  intro w' h
  obtain ⟨chunk, hchunk, h⟩ := Call.bind_eq_ok.mp h
  split at h
  · cases h
    exact .rfl
  · next hpres =>
    cases h
    refine Core.counts_adjust hchunk { chunk with pm := some _, present := true } ?_ fun _ =>
      Option.some_ne_none _
    rw [Bool.eq_false_of_not_eq_true hpres]
    exact Int.add_zero _

theorem counts_chunkSetNoPresent (cid : ℕ) :
    (w.chunkSetNoPresent cid).Returns fun w' => w.core.Counts w'.core := by
  intro w' h
  obtain ⟨chunk, hchunk, h⟩ := Call.bind_eq_ok.mp h
  split at h
  · next hpres =>
    obtain ⟨pm, -, h⟩ := Call.bind_eq_ok.mp h
    cases h
    have habsent : chunk.setNoPresent = .absent := if_pos hpres
    rw [habsent]
    refine Core.counts_adjust hchunk { chunk with toFlags := .absent, pm := none } ?_ fun hp =>
      absurd hp Bool.false_ne_true
    rw [hpres]
    exact (Int.sub_add_cancel _ 1).trans (Int.add_zero _).symm
  · cases h
    exact .rfl

theorem counts_defrag (cid : ℕ) :
    (w.defrag cid).Returns fun w' => w.core.Counts w'.core := by
  intro w' h
  obtain ⟨chunk, hchunk, h⟩ := Call.bind_eq_ok.mp h
  obtain ⟨old, -, h⟩ := Call.bind_eq_ok.mp h
  obtain ⟨pm, -, h⟩ := Call.bind_eq_ok.mp h
  cases h
  exact Core.counts_setChunk hchunk { chunk with pm := some pm, revision := _ } rfl
    fun _ => Option.some_ne_none pm

/-! ## `Open` -/

variable (w) in
/-- `Open` finds a file for the chunk, which is not present. -/
def Finds (cid : ℕ) : Prop :=
  w.findChunk cid ≠ "" ∧ ∃ chunk, w.core.chunks[cid]? = some chunk ∧ chunk.present = false

instance (w : World) (cid : ℕ) : Decidable (w.Finds cid) :=
  inferInstanceAs (Decidable (_ ∧ ∃ chunk, w.core.chunks[cid]? = some chunk ∧ _))

variable (w) in
/-- How many chunks below `n` that were not present `Open` finds. -/
def found (n : ℕ) : ℕ := (List.range n).countP fun cid => w.Finds cid

/-- The world after the turns of `Open` for the chunks below `n`. -/
structure Opening (w : World) (n : ℕ) (w' : World) : Prop where
  files_eq : w'.files = w.files
  dbpath_eq : w'.core.dbpath = w.core.dbpath
  later_eq : ∀ cid, n ≤ cid → w'.core.chunks[cid]? = w.core.chunks[cid]?
  length_eq : w'.core.chunks.length = w.core.chunks.length
  drift_eq : w'.core.drift + w.found n = w.core.drift
  filled : w.core.Filled → w'.core.Filled

/-- **One turn of `Open`.** -/
theorem Opening.openChunk {n : ℕ} {w₁ : World} (h : Opening w n w₁) :
    (w₁.openChunk n).Returns (Opening w (n + 1)) := by
  intro w₂ hx
  have hfind := findChunk_congr h.files_eq h.dbpath_eq n
  have hfound : w.found (n + 1) = w.found n + if w.Finds n then 1 else 0 := by
    rw [found, found, List.range_succ, List.countP_append, List.countP_singleton]
    simp only [decide_eq_true_eq]
  have hdrift := h.drift_eq
  rw [World.openChunk, hfind] at hx
  dsimp only at hx
  split at hx
  · next hnone =>
    cases hx
    refine ⟨h.files_eq, h.dbpath_eq, fun cid hcid => h.later_eq cid (by omega), h.length_eq, ?_,
      h.filled⟩
    rw [hfound, if_neg fun hf => hf.1 hnone]
    exact hdrift
  · next hsome =>
    obtain ⟨chunk, hchunk, hx⟩ := Call.bind_eq_ok.mp hx
    obtain ⟨file, -, hx⟩ := Call.bind_eq_ok.mp hx
    obtain ⟨pm, -, hx⟩ := Call.bind_eq_ok.mp hx
    cases hx
    have hget : w.core.chunks[n]? = some chunk :=
      (h.later_eq n le_rfl).symm.trans (Core.getElem?_of_chunk hchunk)
    refine ⟨h.files_eq, h.dbpath_eq, fun cid hcid => ?_, List.length_set.trans h.length_eq, ?_,
      fun hf => (h.filled hf).setChunk fun _ => Option.some_ne_none pm⟩
    · rw [← h.later_eq cid (by omega)]
      exact List.getElem?_set_ne (by omega)
    · have hset := Core.drift_setChunk hchunk { chunk with pm := some pm, present := true }
      have hfinds : w.Finds n ↔ chunk.present = false := by
        constructor
        · rintro ⟨-, chunk', hget', hp⟩
          rwa [Option.some.inj (hget.symm.trans hget')]
        · intro hp
          exact ⟨hsome, chunk, hget, hp⟩
      have hone : (if w.Finds n then 1 else 0) + chunk.present.toNat = 1 := by
        simp only [hfinds]
        cases chunk.present <;> rfl
      change _ + ((true.toNat : ℕ) : ℤ) = _ at hset
      rw [Bool.toNat_true] at hset
      rw [hfound]
      change (w₁.core.setChunk n { chunk with pm := some pm, present := true }).drift + _ = _
      omega

theorem opening_range (w : World) (n : ℕ) :
    ((List.range n).foldlM World.openChunk w).Returns (Opening w n) := by
  induction n with
  | zero => exact .ok ⟨rfl, rfl, fun _ _ => rfl, rfl, Int.add_zero _, id⟩
  | succ n ih =>
    rw [List.range_succ, List.foldlM_append]
    exact ih.seq fun w₁ h => h.openChunk.seq fun w₂ h' => .ok h'

end World

/-! ## `PresentChunksList` -/

namespace Core

variable {c : Core}

/-- The core `c` and the list after the turns of `PresentChunksList` for the chunks below `n`. -/
structure Listed (c : Core) (n : ℕ) (r : List KnownChunk × Core) : Prop where
  flags_eq : r.2.chunks.map MetaChunk.toFlags = c.chunks.map MetaChunk.toFlags
  known_eq : r.2.knownChunks = c.knownChunks
  filled : r.2.Filled
  length_eq : r.1.length = (c.chunks.take n).countP fun chunk => chunk.present

/-- **One turn of `PresentChunksList`.** -/
theorem Listed.listChunk {n : ℕ} {r : List KnownChunk × Core} (h : Listed c n r)
    (hn : n < c.chunks.length) (now : ℕ → Time) :
    ∃ r', Core.listChunk now r n = .ok r' ∧ Listed c (n + 1) r' := by
  obtain ⟨list, c₁⟩ := r
  have hflags := h.flags_eq
  have hlen : c₁.chunks.length = c.chunks.length := by
    simpa using congrArg List.length hflags
  obtain ⟨chunk, hget⟩ : ∃ chunk, c₁.chunks[n]? = some chunk :=
    ⟨_, List.getElem?_eq_getElem (hlen ▸ hn)⟩
  have hchunk : c₁.chunk n = .ok chunk := by rw [Core.chunk, hget]
  have hpres : c.chunks[n].present = chunk.present := by
    have := congrArg (·[n]?) hflags
    simp only [List.getElem?_map, hget, List.getElem?_eq_getElem hn, Option.map_some,
      Option.some.injEq] at this
    rw [this]
  have hcount : ((c.chunks.take (n + 1)).countP fun chunk => chunk.present)
      = list.length + if chunk.present then 1 else 0 := by
    rw [List.take_succ_eq_append_getElem hn, List.countP_append, List.countP_singleton, hpres,
      ← h.length_eq]
  rw [Core.listChunk, hchunk, Call.ok_bind]
  split
  · next hp =>
    obtain ⟨pm, hpm⟩ := Option.ne_none_iff_exists'.mp
      (h.filled chunk (List.mem_of_getElem? hget) hp)
    rw [hpm, deref, Call.ok_bind]
    refine ⟨_, rfl, ?_, h.known_eq, h.filled.setChunk fun _ => Option.some_ne_none _, ?_⟩
    · rw [← hflags]
      obtain ⟨hlt, rfl⟩ := List.getElem?_eq_some_iff.mp hget
      have hsame : (c₁.chunks.map MetaChunk.toFlags).set n c₁.chunks[n].toFlags
          = c₁.chunks.map MetaChunk.toFlags := by rw [← List.map_set, List.set_getElem_self]
      exact List.map_set.trans hsame
    · rw [List.length_append, hcount, if_pos hp]
      rfl
  · next hp => exact ⟨_, rfl, hflags, h.known_eq, h.filled, by rw [hcount, if_neg hp]; rfl⟩

theorem Listed.counts {n : ℕ} {r : List KnownChunk × Core} (h : Listed c n r) : c.Counts r.2 := by
  have hlen : r.2.chunks.length = c.chunks.length := by
    simpa using congrArg List.length h.flags_eq
  have hcount : r.2.presentCount = c.presentCount := by
    have := congrArg (List.countP fun flags => flags.present) h.flags_eq
    rwa [List.countP_map, List.countP_map] at this
  exact ⟨by rw [drift, drift, hcount, h.known_eq], fun _ => h.filled, hlen⟩

theorem nonneg_of_presentChunksList {now : ℕ → Time} {r : List KnownChunk × Core}
    (h : c.presentChunksList now = .ok r) : 0 ≤ c.knownChunks := by
  rw [presentChunksList] at h
  split at h
  · cases h
  · next hge => exact not_lt.mp hge

/-- **The list of present chunks** has as many entries as there are, if it can be allocated. -/
theorem Filled.presentChunksList (h : c.Filled) (hknown : 0 ≤ c.knownChunks) (now : ℕ → Time) :
    ∃ list c', c.presentChunksList now = .ok (list, c') ∧ list.length = c.presentCount
      ∧ c.Counts c' := by
  have hturns : ∀ n ≤ c.chunks.length, ∃ r,
      (List.range n).foldlM (listChunk now) ([], c) = .ok r ∧ Listed c n r := by
    intro n
    induction n with
    | zero => exact fun _ => ⟨_, rfl, rfl, rfl, h, rfl⟩
    | succ n ih =>
      intro hn
      obtain ⟨r, hr, hlisted⟩ := ih (by omega)
      obtain ⟨r', hr', hlisted'⟩ := hlisted.listChunk (by omega) now
      refine ⟨r', ?_, hlisted'⟩
      rw [List.range_succ, List.foldlM_append, hr, Call.ok_bind, List.foldlM_cons, hr',
        Call.ok_bind]
      rfl
  obtain ⟨⟨list, c'⟩, hr, hlisted⟩ := hturns c.chunks.length le_rfl
  refine ⟨list, c', (if_neg (not_lt.mpr hknown)).trans hr, ?_, hlisted.counts⟩
  rw [hlisted.length_eq, List.take_length]
  rfl

end Core

/-! ## The count -/

/-- What happens to a core in service: an event, or a report of its chunks. -/
inductive Service
  | event (ev : Event)
  | report (now : ℕ → Time)

namespace World

/-- The world after an event or a report. -/
def Serves (w : World) : Service → World → Prop
  | .event ev, w' => Steps w ev w'
  | .report now, w' => ∃ list core,
      w.core.presentChunksList now = .ok (list, core) ∧ w' = { w with core }

/-- No `Open` finds a file for a chunk that is not present. -/
def OpensPresent (w : World) : Service → Prop
  | .event .openAll => ∀ cid chunk, w.core.chunks[cid]? = some chunk →
      w.findChunk cid ≠ "" → chunk.present = true
  | _ => True

variable {w w' : World}

/-- **What an event or a report does to the count**: nothing, except that a restart sets it right
and that `Open` forgets the chunks it finds. -/
theorem Serves.counts {s : Service} (h : w.Serves s w') (hfilled : w.core.Filled) :
    w.core.Counts w'.core
    ∨ (s = .event .restart ∧ w'.core.drift = 0 ∧ w'.core.Filled
      ∧ w'.core.chunks.length = w.core.chunks.length)
    ∨ (s = .event .openAll ∧ Opening w w.core.chunks.length w') := by
  cases s with
  | report now =>
    obtain ⟨list, core, hlist, rfl⟩ := h
    obtain ⟨list', core', hlist', -, hcounts⟩ :=
      hfilled.presentChunksList (Core.nonneg_of_presentChunksList hlist) now
    obtain ⟨-, rfl⟩ := Prod.mk.inj (Except.ok.inj (hlist.symm.trans hlist'))
    exact Or.inl hcounts
  | event ev =>
    cases ev with
    | request isSynced op =>
      obtain ⟨r, hr, h⟩ := Call.bind_eq_ok.mp h
      cases h
      exact Or.inl (counts_request isSynced op r hr)
    | openAll => exact Or.inr (Or.inr ⟨rfl, opening_range w _ w' h⟩)
    | setPresent cid => exact Or.inl (counts_chunkSetPresent cid w' h)
    | setNoPresent cid => exact Or.inl (counts_chunkSetNoPresent cid w' h)
    | setProtected cid =>
      obtain ⟨r, hr, h⟩ := Call.bind_eq_ok.mp h
      cases h
      exact Or.inl (counts_chunkSetProtected cid r hr)
    | defrag cid => exact Or.inl (counts_defrag cid w' h)
    | restart =>
      cases h
      exact Or.inr (Or.inl ⟨rfl, Core.drift_new .., Core.filled_new _ _ _, List.length_replicate⟩)

/-- The cached number is right, and every chunk that is present has a `PMap`. -/
structure Counted (w : World) : Prop where
  drift_eq : w.core.drift = 0
  filled : w.core.Filled

theorem counted_new (dbpath : String) (chunkSize numChunks : ℕ) (files : List (String × File)) :
    Counted ⟨.new dbpath chunkSize numChunks, files⟩ :=
  ⟨Core.drift_new .., Core.filled_new _ _ _⟩

theorem Counted.presentChunks_eq (h : Counted w) : w.core.presentChunks = w.core.presentCount :=
  Int.sub_eq_zero.mp h.drift_eq

theorem found_eq_zero_iff : w.found w.core.chunks.length = 0
    ↔ w.OpensPresent (.event .openAll) := by
  rw [found, List.countP_eq_zero]
  constructor
  · intro h cid chunk hget hfind
    have hlt := (List.getElem?_eq_some_iff.mp hget).1
    by_contra hpres
    exact h cid (List.mem_range.mpr hlt)
      (decide_eq_true ⟨hfind, chunk, hget, Bool.eq_false_of_not_eq_true hpres⟩)
  · intro h cid _ hfinds
    obtain ⟨hfind, chunk, hget, hpres⟩ := of_decide_eq_true hfinds
    rw [h cid chunk hget hfind] at hpres
    cases hpres

theorem eq_openAll_of_not {s : Service} (h : ¬ w.OpensPresent s) : s = .event .openAll := by
  cases s with
  | report now => exact absurd trivial h
  | event ev =>
    cases ev with
    | openAll => rfl
    | _ => exact absurd trivial h

/-- **What keeps the count right.** -/
theorem Counted.serves {s : Service} (h : Counted w) (hg : w.OpensPresent s)
    (hs : w.Serves s w') : Counted w' := by
  rcases hs.counts h.filled with hc | ⟨rfl, hd, hf, -⟩ | ⟨rfl, ho⟩
  · exact ⟨hc.drift_eq.trans h.drift_eq, hc.filled h.filled⟩
  · exact ⟨hd, hf⟩
  · have hdrift := ho.drift_eq
    rw [found_eq_zero_iff.mpr hg, h.drift_eq] at hdrift
    exact ⟨(Int.add_zero _).symm.trans hdrift, ho.filled h.filled⟩

/-- **When the cached number of present chunks is right.**  For a core of any number of chunks, over
any files: it is as long as no `Open` finds a file for a chunk that is not present, and then it is
not negative and `PresentChunksList` lists as many chunks.  Right after such an `Open` it is
wrong. -/
theorem presentChunks_exact (dbpath : String) (chunkSize numChunks : ℕ)
    (files : List (String × File)) :
    ExactGuard Serves OpensPresent (fun w => w.core.presentChunks ≠ w.core.presentCount)
      ⟨.new dbpath chunkSize numChunks, files⟩
    ∧ ∀ ss w, Run (Guarded Serves OpensPresent) ⟨.new dbpath chunkSize numChunks, files⟩ ss w →
      0 ≤ w.core.presentChunks ∧ ∀ now, ∃ list core,
        w.core.presentChunksList now = .ok (list, core) ∧ list.length = w.core.presentChunks := by
  have h₀ := counted_new dbpath chunkSize numChunks files
  refine ⟨.of_invariant h₀ Counted.serves (fun h hbad => hbad h.presentChunks_eq) ?_, ?_⟩
  · intro w s w' h hg hs
    obtain rfl := eq_openAll_of_not hg
    refine .now fun heq => hg (found_eq_zero_iff.mp ?_)
    have hdrift := (opening_range w _ w' hs).drift_eq
    rw [h.drift_eq, show w'.core.drift = 0 from Int.sub_eq_zero.mpr heq] at hdrift
    omega
  · intro ss w hrun
    have h : Counted w := hrun.invariant (fun h hs => h.serves hs.1 hs.2) h₀
    have hnonneg : 0 ≤ w.core.presentChunks := by
      rw [h.presentChunks_eq]
      exact Int.natCast_nonneg _
    refine ⟨hnonneg, fun now => ?_⟩
    obtain ⟨list, core, hlist, hlen, -⟩ := h.filled.presentChunksList hnonneg now
    exact ⟨list, core, hlist, by rw [hlen, h.presentChunks_eq]⟩

/-- A core that opens the empty chunk an earlier process left counts none, and one less than none
when that chunk is dropped: its chunks can no longer be listed. -/
theorem presentChunks_negative : ∃ w w',
    Serves ⟨.new "db" 64 1, [("0_rev0", ⟨64, fun _ => 0⟩)]⟩ (.event .openAll) w
    ∧ w.core.presentChunks = 0 ∧ w.core.presentCount = 1
    ∧ w.Serves (.event (.setNoPresent 0)) w' ∧ w'.core.presentChunks = -1
    ∧ w'.core.presentChunksList (fun _ => 0) = .error .panic := by
  have hopen : (next ⟨.new "db" 64 1, [("0_rev0", ⟨64, fun _ => 0⟩)]⟩ .openAll).map
      (fun w => (w.core.knownChunks, w.core.presentCount)) = some (0, 1) := by decide +kernel
  have hdrop : ((next ⟨.new "db" 64 1, [("0_rev0", ⟨64, fun _ => 0⟩)]⟩ .openAll).bind
      fun w => w.next (.setNoPresent 0)).map (fun w => w.core.knownChunks) = some (-1) := by
    decide +kernel
  obtain ⟨w, hw, hopen⟩ := Option.map_eq_some_iff.mp hopen
  obtain ⟨hknown, hcount⟩ := Prod.mk.inj hopen
  rw [hw, Option.bind_some] at hdrop
  obtain ⟨w', hw', hknown'⟩ := Option.map_eq_some_iff.mp hdrop
  refine ⟨w, w', steps_of_next hw, hknown, hcount, steps_of_next hw', hknown', if_pos ?_⟩
  rw [hknown']
  decide

end World

end Treeless
