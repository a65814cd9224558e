import Treeless.Core.Count

/-!
# Dist/Heartbeater — the heartbeat a server answers with

A server answers a ping with the chunks it has, and the servers it heard of during the last ten
seconds.  `Marshal` has room for 116 chunks, and how many a server has is configured: from 117 on,
a server that has all chunks answers the first ping with a write outside the message
(`marshal_listenReply_iff`).
-/

namespace Treeless

/-- How long news are passed on, in nanoseconds. -/
def gossipNewsExpirationTime : Time := 10 * 1000000000

/-- The news of a heartbeater: addresses and when they were heard of, in the order in which an
iteration over the map comes to them. -/
structure Heartbeater where
  recentlyAddedServers : List (Bytes × Time)
  recentlyDeadServers : List (Bytes × Time)

namespace Heartbeater

variable (h : Heartbeater)

/-- The news that are not too old at the time `t`. -/
def fresh (t : Time) (news : List (Bytes × Time)) : List (Bytes × Time) :=
  news.filter fun entry => !decide (entry.2 + gossipNewsExpirationTime < t)

def cleanNews (t : Time) : Heartbeater :=
  ⟨fresh t h.recentlyAddedServers, fresh t h.recentlyDeadServers⟩

/-- The answer to a ping; `t`, `t'` and `now` are the times its calls take. -/
def listenReply (c : Core) (t : Time) (now : ℕ → Time) (t' : Time) :
    Call (AmAlive × Heartbeater × Core) := do
  let h := h.cleanNews t
  let (knownChunks, c) ← c.presentChunksList now
  let h := h.cleanNews t'
  return (⟨knownChunks, h.recentlyAddedServers.map Prod.fst, h.recentlyDeadServers.map Prod.fst⟩,
    h, c)

end Heartbeater

namespace World

variable {w : World} {dbpath : String} {chunkSize numChunks : ℕ} {files : List (String × File)}

/-- Whatever happens, the chunks that are present have a `PMap`, and no chunk is added. -/
theorem Serves.filled {s : Service} {w' : World} (hs : w.Serves s w')
    (hw : w.core.Filled ∧ w.core.chunks.length = numChunks) :
    w'.core.Filled ∧ w'.core.chunks.length = numChunks := by
  obtain ⟨hf, hlen⟩ := hw
  rcases hs.counts hf with hc | ⟨-, -, hf', hlen'⟩ | ⟨-, ho⟩
  · exact ⟨hc.filled hf, hc.length_eq.trans hlen⟩
  · exact ⟨hf', hlen'.trans hlen⟩
  · exact ⟨ho.filled hf, ho.length_eq.trans hlen⟩

/-- Along every run the chunks that are present have a `PMap`, and no chunk is added. -/
theorem filled_of_run {ss : List Service}
    (hrun : Run Serves ⟨.new dbpath chunkSize numChunks, files⟩ ss w) :
    w.core.Filled ∧ w.core.chunks.length = numChunks :=
  hrun.invariant (I := fun w => w.core.Filled ∧ w.core.chunks.length = numChunks)
    (fun hw hs => hs.filled hw) ⟨Core.filled_new _ _ _, List.length_replicate⟩

/-- A chunk that is not present can be made so. -/
theorem exists_chunkSetPresent {cid : ℕ} {chunk : MetaChunk} (h : w.core.chunk cid = .ok chunk)
    (hpres : chunk.present = false) : ∃ w' chunk', Steps w (.setPresent cid) w'
      ∧ w'.core.knownChunks = w.core.knownChunks + 1
      ∧ w'.core.chunks = w.core.chunks.set cid chunk' := by
  let pm := PMap.new (w.core.chunkPath cid 0) w.core.chunkSize
  let core := w.core.setChunk cid { chunk with pm := some pm, present := true }
  have hstep : w.chunkSetPresent cid
      = .ok ⟨{ core with knownChunks := core.knownChunks + 1 }, w.create cid 0⟩ := by
    rw [chunkSetPresent, h, Call.ok_bind, hpres, if_neg Bool.false_ne_true]
    rfl
  exact ⟨_, _, hstep, rfl, rfl⟩

/-- The chunks below `n` have been made present, and the others are as they were. -/
structure Peopled (numChunks n : ℕ) (w : World) : Prop extends Counted w where
  count_eq : w.core.presentCount = n
  later_eq : ∀ cid, n ≤ cid → cid < numChunks → w.core.chunks[cid]? = some ⟨.absent, none, 0⟩

/-- **Every chunk can be made present.** -/
theorem exists_peopled (dbpath : String) (chunkSize : ℕ) (files : List (String × File)) :
    ∀ n ≤ numChunks, ∃ w,
    Run Serves ⟨.new dbpath chunkSize numChunks, files⟩
      ((List.range n).map fun cid => .event (.setPresent cid)) w ∧ Peopled numChunks n w
  | 0, _ => by
      refine ⟨_, .refl _, counted_new .., ?_, fun cid _ hlt => ?_⟩
      · have := (counted_new dbpath chunkSize numChunks files).presentChunks_eq
        exact Int.natCast_inj.mp this.symm
      · exact List.getElem?_replicate_of_lt hlt
  | n + 1, hn => by
      obtain ⟨w, hrun, hw⟩ := exists_peopled dbpath chunkSize files n (by omega)
      have hget := hw.later_eq n le_rfl (by omega)
      have hchunk : w.core.chunk n = .ok ⟨.absent, none, 0⟩ := by rw [Core.chunk, hget]
      obtain ⟨w', chunk', hstep, hknown, hset⟩ := exists_chunkSetPresent hchunk rfl
      have hserves : w.Serves (.event (.setPresent n)) w' := hstep
      have hcounted := Counted.serves (s := .event (.setPresent n)) hw.toCounted trivial hserves
      refine ⟨w', ?_, hcounted, ?_, fun cid hle hlt => ?_⟩
      · rw [List.range_succ, List.map_append]
        exact hrun.append (.cons hserves (.refl w'))
      · have h₁ := hw.toCounted.presentChunks_eq
        have h₂ := hcounted.presentChunks_eq
        rw [Core.presentChunks] at h₁ h₂
        have := hw.count_eq
        omega
      · rw [hset, List.getElem?_set_ne (by omega)]
        exact hw.later_eq cid (by omega) hlt

end World

namespace Heartbeater

open World

variable {w : World} {dbpath : String} {chunkSize numChunks : ℕ} {files : List (String × File)}

/-- The answer names every chunk that is present. -/
theorem length_of_listenReply {ss : List Service} {h h' : Heartbeater} {t t' : Time}
    {now : ℕ → Time} {aa : AmAlive} {core : Core}
    (hrun : Run Serves ⟨.new dbpath chunkSize numChunks, files⟩ ss w)
    (hreply : h.listenReply w.core t now t' = .ok (aa, h', core)) :
    aa.knownChunks.length = w.core.presentCount := by
  obtain ⟨⟨list, c⟩, hlist, hreply⟩ := Call.bind_eq_ok.mp hreply
  obtain ⟨list', c', hlist', hlen, -⟩ :=
    (filled_of_run hrun).1.presentChunksList (Core.nonneg_of_presentChunksList hlist) now
  obtain ⟨rfl, rfl⟩ := Prod.mk.inj (Except.ok.inj (hlist.symm.trans hlist'))
  cases hreply
  exact hlen

/-- A server that makes all its chunks present names them all. -/
theorem exists_reply (dbpath : String) (chunkSize numChunks : ℕ) (files : List (String × File)) :
    ∃ w aa h core, Run Serves ⟨.new dbpath chunkSize numChunks, files⟩
      ((List.range numChunks).map fun cid => .event (.setPresent cid)) w
    ∧ listenReply ⟨[], []⟩ w.core 0 (fun _ => 0) 0 = .ok (aa, h, core)
    ∧ aa.knownChunks.length = numChunks := by
  obtain ⟨w, hrun, hw⟩ := exists_peopled dbpath chunkSize files numChunks le_rfl
  have hknown : 0 ≤ w.core.knownChunks := by
    have := hw.toCounted.presentChunks_eq
    rw [Core.presentChunks] at this
    omega
  obtain ⟨list, core, hlist, hlen, -⟩ := hw.filled.presentChunksList hknown fun _ => 0
  refine ⟨w, ⟨list, [], []⟩, ⟨[], []⟩, core, hrun, ?_, hlen.trans hw.count_eq⟩
  rw [listenReply, hlist]
  rfl

/-- **When a heartbeat fits.**  Whatever a server went through, the message of its answer is written
inside the buffer exactly if at most 116 of its chunks are present.  So every answer of a server
fits, whatever it goes through, exactly if it is configured with at most 116 chunks. -/
theorem marshal_listenReply_iff (dbpath : String) (chunkSize numChunks : ℕ)
    (files : List (String × File)) :
    (∀ ss w h t now t' aa h' core, Run Serves ⟨.new dbpath chunkSize numChunks, files⟩ ss w →
      listenReply h w.core t now t' = .ok (aa, h', core) →
      ((∃ msg, aa.marshal = .ok msg) ↔ w.core.presentCount ≤ 116))
    ∧ ((∀ ss w h t now t' aa h' core, Run Serves ⟨.new dbpath chunkSize numChunks, files⟩ ss w →
      listenReply h w.core t now t' = .ok (aa, h', core) → ∃ msg, aa.marshal = .ok msg)
      ↔ numChunks ≤ 116) := by
  have hexact : ∀ ss w h t now t' aa h' core,
      Run Serves ⟨.new dbpath chunkSize numChunks, files⟩ ss w →
      listenReply h w.core t now t' = .ok (aa, h', core) →
      ((∃ msg, aa.marshal = .ok msg) ↔ w.core.presentCount ≤ 116) := by
    intro ss w h t now t' aa h' core hrun hreply
    rw [← length_of_listenReply hrun hreply]
    exact AmAlive.marshal_ok_iff
  refine ⟨hexact, fun hall => ?_, fun hle ss w h t now t' aa h' core hrun hreply => ?_⟩
  · obtain ⟨w, aa, h, core, hrun, hreply, hlen⟩ := exists_reply dbpath chunkSize numChunks files
    rw [← hlen]
    exact AmAlive.marshal_ok_iff.mp (hall _ w _ _ _ _ aa h core hrun hreply)
  · refine (hexact ss w h t now t' aa h' core hrun hreply).mpr ?_
    have := (filled_of_run hrun).2
    exact (List.countP_le_length.trans this.le).trans hle

/-- A server of 117 chunks that has them all answers a ping outside the buffer. -/
theorem marshal_listenReply_full : ∃ w aa h core, Run Serves ⟨.new "" 64 117, []⟩
      ((List.range 117).map fun cid => .event (.setPresent cid)) w
    ∧ listenReply ⟨[], []⟩ w.core 0 (fun _ => 0) 0 = .ok (aa, h, core)
    ∧ aa.marshal = .error .bounds := by
  obtain ⟨w, aa, h, core, hrun, hreply, hlen⟩ := exists_reply "" 64 117 []
  exact ⟨w, aa, h, core, hrun, hreply, AmAlive.marshal_eq_error (by omega)⟩

end Heartbeater

end Treeless
