import Treeless.Server.Server
import Treeless.PMap.Backwards

/-!
# Server/Robust — when a node survives what its peers send

A node is in order (`Valid`) if its present chunks follow their ledgers, its group is one of as many
chunks, and its transfers stand at records of the logs they go through.  A node in order faults on
an event exactly if the event is not `Safe`:

    listen    a frame that is not well-formed, or a message the node does not accept
    dial      a dial that fails, or a chunk that does not exist
    turn      a `PMap` closed while a pair of it was sent, or a record that is not readable

Every other event, and every safe one, leaves the node in order.
-/

namespace Treeless

/-- The chunk is not here, or its `PMap` follows the ledger, in a store that a 32-bit word
addresses. -/
def MetaChunk.Follows (chunk : MetaChunk) (L : Ledger) : Prop :=
  chunk.present → ∃ pm, chunk.pm = some pm ∧ pm.Refines fnv1a64 L ∧ L.size ≤ 2 ^ 32

namespace Core

variable (c : Core) (cid : ℕ)

/-- The chunk is here. -/
def Present : Prop := ∃ chunk, c.chunks[cid]? = some chunk ∧ chunk.present

/-- The chunk is here, in `pm`. -/
def Maps (pm : PMap) : Prop :=
  ∃ chunk, c.chunks[cid]? = some chunk ∧ chunk.present ∧ chunk.pm = some pm

variable {c cid}

theorem Maps.unique {pm pm' : PMap} (h : c.Maps cid pm)
    (h' : c.Maps cid pm') : pm = pm' := by
  obtain ⟨chunk, hget, -, hpm⟩ := h
  obtain ⟨chunk', hget', -, hpm'⟩ := h'
  obtain rfl := Option.some.inj (hget.symm.trans hget')
  exact Option.some.inj (hpm.symm.trans hpm')

theorem chunk_eq {chunk : MetaChunk} (h : c.chunks[cid]? = some chunk) :
    c.chunk cid = .ok chunk := by
  rw [Core.chunk, h]

theorem chunk_eq_error (h : ¬ cid < c.chunks.length) : c.chunk cid = .error .bounds := by
  rw [Core.chunk, List.getElem?_eq_none (not_lt.mp h)]

theorem exists_chunk (h : cid < c.chunks.length) : ∃ chunk, c.chunks[cid]? = some chunk :=
  ⟨_, List.getElem?_eq_getElem h⟩

end Core

/-- The transfer stands at a record of the chunk it goes through, while its `PMap` is not closed. -/
def Transfer.Stands (c : Core) (L : ℕ → Ledger) : Transfer → Prop
  | «at» cid index => c.Present cid ∧ Boundary (L cid).log index
  | past cid index mapped =>
    mapped = true → c.Present cid ∧ ∃ r, recordAt (L cid).log index = some r
  | _ => True

namespace DBServer

variable (s : DBServer)

/-- The node is in order, and its chunks follow the ledgers `L`. -/
structure Follows (L : ℕ → Ledger) : Prop where
  pos : 0 < s.core.chunks.length
  group : s.sg.Inv s.core.chunks.length
  made : s.sg.made
  ready : ∀ p ∈ s.conns, p.1.Ready
  chunks : ∀ (cid : ℕ) (chunk : MetaChunk), s.core.chunks[cid]? = some chunk → chunk.Follows (L cid)
  transfers : ∀ t ∈ s.transfers, t.Stands s.core L

/-- A node in order. -/
def Valid : Prop := ∃ L, s.Follows L

/-! ## Safe events -/

/-- The node accepts a message: a `Del` of a present key has a timestamp, and a chunk ID has its
four bytes and, if it is used at once, is that of a chunk. -/
structure Accepts (m : Message) : Prop where
  del : m.type = Operation.del → 8 ≤ m.value.length
    ∨ ∀ pm, s.core.Maps (s.core.chunkIndex m.key) pm → pm.value m.key = none
  transfer : m.type = Operation.transfer → 4 ≤ m.key.length
  chunk : m.type = Operation.getChunkInfo ∨ m.type = Operation.protect →
    4 ≤ m.key.length ∧ leNat (m.key.take 4) < s.core.chunks.length

/-- The event does not fault. -/
def Safe : Event → Prop
  | .listen i => ∀ c t, s.conns[i]? = some (c, t) → ∀ src rest,
    frame (c.stream t) = some (src, rest) →
      WellFormed src ∧ (s.stopped = false → s.Accepts (.ofFrame src))
  | .dial j ok => ∀ cid, s.transfers[j]? = some (.dialing cid) →
    ok = true ∧ cid < s.core.chunks.length
  | .turn j => (∀ cid index, s.transfers[j]? = some (.at cid index) → ∀ pm, s.core.Maps cid pm →
      index < pm.st.length → pm.Readable index)
    ∧ ∀ cid index mapped, s.transfers[j]? = some (.past cid index mapped) → mapped = true
  | _ => True

/-- What the environment of a node does: it puts `PMap`s in order in place of others, not in a chunk
that is locked, and keeps the group one of the same chunks. -/
def Enabled : Event → Prop
  | .replace cid chunk =>
    (∃ L, chunk.Follows L) ∧ ∀ index, Transfer.at cid index ∉ s.transfers
  | .regroup sg => sg.Inv s.core.chunks.length ∧ sg.made
  | _ => True

/-- All bytes of the connection arrive, and there is room for them. -/
def Arrives : Event → Prop
  | .listen i => ∀ c t, s.conns[i]? = some (c, t) → t.Trickles ∧ ¬ c.Stuck t
  | _ => True

section

variable (marshal : ℕ → ℤ → ServerMap → Bytes)

/-- The event ends in an index or a slice out of range, or in a `nil` dereference. -/
def Faults (ev : Event) : Prop := ∃ f, f ≠ .endless ∧ s.step marshal ev = .error f

/-- A safe event. -/
def SafeStep (ev : Event) (s' : DBServer) : Prop :=
  s.Enabled ev ∧ s.Safe ev ∧ s.step marshal ev = .ok s'

end

/-! ## One chunk changes -/

end DBServer

namespace Core

variable {c : Core} {cid : ℕ} {chunk chunk' : MetaChunk}

theorem length_setChunk : (c.setChunk cid chunk').chunks.length = c.chunks.length :=
  List.length_set

theorem getElem?_setChunk_of_ne {cid' : ℕ} (h : cid' ≠ cid) :
    (c.setChunk cid chunk').chunks[cid']? = c.chunks[cid']? :=
  List.getElem?_set_ne h.symm

theorem getElem?_setChunk_self (h : c.chunks[cid]? = some chunk) :
    (c.setChunk cid chunk').chunks[cid]? = some chunk' :=
  List.getElem?_set_self (List.getElem?_eq_some_iff.mp h).1

theorem present_setChunk (h : c.chunks[cid]? = some chunk) (hpres : chunk'.present)
    {cid' : ℕ} (hp : c.Present cid') : (c.setChunk cid chunk').Present cid' := by
  by_cases hc : cid' = cid
  · subst hc
    exact ⟨chunk', getElem?_setChunk_self h, hpres⟩
  · rwa [Present, getElem?_setChunk_of_ne hc]

end Core

namespace Transfer

variable {c c' : Core} {L L' : ℕ → Ledger} {t : Transfer}

/-- A transfer stands where it stood if chunks stay present and logs only grow. -/
theorem Stands.mono (h : t.Stands c L) (hpres : ∀ cid, c.Present cid → c'.Present cid)
    (hlog : ∀ cid, ∃ rest, (L' cid).log = (L cid).log ++ rest) : t.Stands c' L' := by
  cases t with
  | dialing | ended => trivial
  | «at» cid index =>
    obtain ⟨rest, hrest⟩ := hlog cid
    refine ⟨hpres cid h.1, ?_⟩
    rw [hrest]
    exact h.2.append rest
  | past cid index mapped =>
    intro hm
    obtain ⟨hp, r, hr⟩ := h hm
    obtain ⟨rest, hrest⟩ := hlog cid
    refine ⟨hpres cid hp, r, ?_⟩
    rw [hrest]
    exact recordAt_append_of_some rest hr

/-- A transfer that stands in another chunk, or whose `PMap` is closed now, stands. -/
theorem Stands.unmap {cid : ℕ} {chunk : MetaChunk} {L₀ : Ledger} (h : t.Stands c L)
    (hat : ∀ index, t ≠ .at cid index) :
    (t.unmap cid).Stands (c.setChunk cid chunk) (Function.update L cid L₀) := by
  have hother : ∀ {cid'}, cid' ≠ cid → c.Present cid' → (c.setChunk cid chunk).Present cid' :=
    fun hc hp => by rwa [Core.Present, Core.getElem?_setChunk_of_ne hc]
  cases t with
  | dialing | ended => trivial
  | «at» cid' index =>
    have hc : cid' ≠ cid := fun hc => hat index (hc ▸ rfl)
    refine ⟨hother hc h.1, ?_⟩
    rw [Function.update_of_ne hc]
    exact h.2
  | past cid' index mapped =>
    intro hm
    obtain ⟨hm, hc⟩ := Bool.and_eq_true_iff.mp hm
    replace hc : cid' ≠ cid := of_decide_eq_true hc
    obtain ⟨hp, r, hr⟩ := h hm
    refine ⟨hother hc hp, r, ?_⟩
    rw [Function.update_of_ne hc]
    exact hr

end Transfer

namespace DBServer

variable {s : DBServer} {L : ℕ → Ledger} {cid : ℕ} {chunk chunk' : MetaChunk}

/-- The chunks follow their ledgers after one of them changed. -/
theorem Follows.chunks_setChunk (h : s.Follows L) {L₀ : Ledger} (hchunk' : chunk'.Follows L₀)
    (cid' : ℕ) (x : MetaChunk) (hx : (s.core.setChunk cid chunk').chunks[cid']? = some x) :
    x.Follows (Function.update L cid L₀ cid') := by
  by_cases hc : cid' = cid
  · subst hc
    rw [Function.update_self]
    rw [Core.setChunk, List.getElem?_set, if_pos rfl] at hx
    split at hx
    · exact Option.some.inj hx ▸ hchunk'
    · cases hx
  · rw [Function.update_of_ne hc]
    rw [Core.getElem?_setChunk_of_ne hc] at hx
    exact h.chunks cid' x hx

/-- **A chunk whose log only grows** leaves the node in order. -/
theorem Follows.setChunk (h : s.Follows L) (hget : s.core.chunks[cid]? = some chunk)
    (hpres : chunk'.present) {L₀ : Ledger} (hchunk' : chunk'.Follows L₀)
    (hlog : ∃ rest, L₀.log = (L cid).log ++ rest) :
    ({ s with core := s.core.setChunk cid chunk' } : DBServer).Valid := by
  refine ⟨Function.update L cid L₀, ?_, ?_, h.made, h.ready, h.chunks_setChunk hchunk',
    fun t ht => (h.transfers t ht).mono (fun _ => Core.present_setChunk hget hpres) fun cid' => ?_⟩
  · rw [Core.length_setChunk]
    exact h.pos
  · rw [Core.length_setChunk]
    exact h.group
  · by_cases hc : cid' = cid
    · subst hc
      rwa [Function.update_self]
    · rw [Function.update_of_ne hc]
      exact ⟨[], (List.append_nil _).symm⟩

end DBServer

/-! ## Messages -/

/-- **Every request with a timestamp, or of an absent key, is answered**; the log only grows. -/
theorem PMap.Refines.apply_returns {hash : Bytes → UInt64} {pm : PMap} {L : Ledger}
    (h : pm.Refines hash L) (hsize : L.size ≤ 2 ^ 32) {op : Op}
    (hop : op.Timed ∨ L.dict op.key = none) :
    ∃ e pm' L', pm.apply hash op = .ok (e, pm') ∧ pm'.Refines hash L' ∧ L'.size = L.size
      ∧ ∃ rest, L'.log = L.log ++ rest := by
  by_cases htimed : op.Timed
  · obtain ⟨e, pm', hs⟩ := PMap.exists_step h (h.size_eq ▸ hsize) htimed
    obtain ⟨-, hr, -, hmoves⟩ := hs.refines h
    refine ⟨e, pm', _, hs.2.1, hr, Ledger.size_apply .., ?_⟩
    rcases hmoves with ⟨hlog, -⟩ | ⟨r, hlog, -⟩
    · exact ⟨[], hlog.trans (List.append_nil _).symm⟩
    · exact ⟨[r], hlog⟩
  · cases op with
    | set | cas => exact absurd trivial htimed
    | del k v =>
      exact ⟨none, pm, L, h.del_absent (hop.resolve_left htimed) v, h, rfl, [],
        (List.append_nil _).symm⟩

namespace DBServer

variable {s : DBServer} {L : ℕ → Ledger}

theorem Follows.chunkIndex_lt (h : s.Follows L) (key : Bytes) :
    s.core.chunkIndex key < s.core.chunks.length := Nat.mod_lt _ h.pos

/-- The requests to a chunk that is not present fail. -/
theorem request_absent {op : Op} {chunk : MetaChunk}
    (hget : s.core.chunks[s.core.chunkIndex op.key]? = some chunk) (hpres : ¬ chunk.present) :
    s.request op = .ok (some .chunkNotPresent, s) := by
  have hsync : s.synched op chunk.present = .ok true := by
    rw [synched, Bool.eq_false_iff.mpr hpres, Bool.false_and, if_neg Bool.false_ne_true]
  rw [request, Core.chunk_eq hget, Call.ok_bind, hsync, Call.ok_bind, Core.request]
  dsimp only
  rw [Core.chunk_eq hget, Call.ok_bind, if_neg hpres]
  rfl

/-- Whether the chunk of a request is synched is answered. -/
theorem Follows.synched (h : s.Follows L) (op : Op) (b : Bool) :
    ∃ synched, s.synched op b = .ok synched := by
  rw [DBServer.synched]
  split
  · exact h.group.isSynched (h.group.length_eq ▸ h.chunkIndex_lt op.key)
  · exact ⟨true, rfl⟩

/-- The node with another state of the `PMap` of a chunk. -/
def putPM (s : DBServer) (cid : ℕ) (chunk : MetaChunk) (pm : PMap) : DBServer :=
  { s with core := s.core.setChunk cid { chunk with pm := some pm } }

/-- The requests to a chunk that is present: a `CAS` may find that it is not synched, the others go
to its `PMap`. -/
theorem Follows.request_present (h : s.Follows L) (op : Op) {chunk : MetaChunk} {pm : PMap}
    (hget : s.core.chunks[s.core.chunkIndex op.key]? = some chunk) (hpres : chunk.present)
    (hpm : chunk.pm = some pm) :
    (op.isCas ∧ s.request op = .ok (some .chunkNotSynced, s))
      ∨ s.request op = (fun p => (p.1.map CoreError.pmap,
          s.putPM (s.core.chunkIndex op.key) chunk p.2)) <$> pm.apply fnv1a64 op := by
  obtain ⟨synched, hsync⟩ := h.synched op chunk.present
  rw [DBServer.request, Core.chunk_eq hget, Call.ok_bind, hsync, Call.ok_bind, Core.request]
  dsimp only
  rw [Core.chunk_eq hget, Call.ok_bind, if_pos hpres]
  split
  · next hcas =>
    exact Or.inl ⟨(Bool.and_eq_true_iff.mp hcas).1, rfl⟩
  · rw [hpm, Core.deref, Call.ok_bind]
    refine Or.inr ?_
    cases pm.apply fnv1a64 op <;> rfl

/-- **A request leaves the node in order**, if it has a timestamp or its key is absent. -/
theorem Follows.request (h : s.Follows L) {op : Op} (hop : op.Timed
    ∨ ∀ pm, s.core.Maps (s.core.chunkIndex op.key) pm → pm.value op.key = none) :
    ∃ e s', s.request op = .ok (e, s') ∧ s'.Valid := by
  obtain ⟨chunk, hget⟩ := Core.exists_chunk (h.chunkIndex_lt op.key)
  by_cases hpres : chunk.present
  · obtain ⟨pm, hpm, hr, hsize⟩ := h.chunks _ _ hget hpres
    have hop' : op.Timed ∨ (L (s.core.chunkIndex op.key)).dict op.key = none :=
      hop.imp id fun hall => hr.value_eq ▸ hall pm ⟨chunk, hget, hpres, hpm⟩
    obtain ⟨e, pm', L', happly, hr', hsize', hlog⟩ := hr.apply_returns hsize hop'
    rcases h.request_present op hget hpres hpm with ⟨-, hx⟩ | hx
    · exact ⟨_, _, hx, L, h⟩
    · rw [happly] at hx
      exact ⟨_, _, hx, h.setChunk hget hpres (fun _ => ⟨pm', rfl, hr', hsize'.trans_le hsize⟩) hlog⟩
  · exact ⟨_, _, request_absent hget hpres, L, h⟩

/-- A `Del` of a present key without a timestamp. -/
theorem Follows.request_short (h : s.Follows L) {key value : Bytes} {pm : PMap}
    (hpm : s.core.Maps (s.core.chunkIndex key) pm) (hkey : pm.value key ≠ none)
    (hlen : ¬ 8 ≤ value.length) : s.request (.del key value) = .error .bounds := by
  obtain ⟨chunk, hget, hpres, hpm⟩ := hpm
  obtain ⟨pm', hpm', hr, -⟩ := h.chunks _ _ hget hpres
  obtain rfl : pm = pm' := Option.some.inj (hpm.symm.trans hpm')
  rw [hr.value_eq] at hkey
  obtain ⟨old, hold⟩ := Option.ne_none_iff_exists'.mp hkey
  rcases h.request_present (.del key value) hget hpres hpm with ⟨hcas, -⟩ | hx
  · cases hcas
  · rw [hx, hr.del_short hold (not_le.mp hlen)]
    rfl

/-- `Get` returns. -/
theorem Follows.get (h : s.Follows L) (key : Bytes) : ∃ v, s.core.get key = .ok v := by
  obtain ⟨chunk, hget⟩ := Core.exists_chunk (h.chunkIndex_lt key)
  rw [Core.get, Core.chunk_eq hget, Call.ok_bind]
  split
  · next hpres =>
    obtain ⟨pm, hpm, hr, -⟩ := h.chunks _ _ hget hpres
    obtain ⟨v, hv⟩ := hr.toDenotes.get_returns (fnv1a64 key).toUInt32 key
    rw [hpm, Core.deref, Call.ok_bind, hv]
    exact ⟨_, rfl⟩
  · exact ⟨_, rfl⟩

variable {cid : ℕ}

/-- `LengthOfChunk` of a chunk returns. -/
theorem Follows.lengthOfChunk (h : s.Follows L) (hlt : cid < s.core.chunks.length) :
    ∃ length, s.core.lengthOfChunk cid = .ok length := by
  obtain ⟨chunk, hget⟩ := Core.exists_chunk hlt
  rw [Core.lengthOfChunk, Core.chunk_eq hget, Call.ok_bind]
  split
  · next hpres =>
    obtain ⟨pm, hpm, -⟩ := h.chunks _ _ hget hpres
    rw [hpm]
    exact ⟨_, rfl⟩
  · exact ⟨_, rfl⟩

theorem chunkID_eq {key : Bytes} (h : 4 ≤ key.length) : chunkID key = .ok (leNat (key.take 4)) := by
  rw [chunkID, slice_eq (Nat.zero_le 4) h, List.drop_zero]
  rfl

theorem chunkID_eq_error {key : Bytes} (h : ¬ 4 ≤ key.length) : chunkID key = .error .bounds := by
  rw [chunkID, slice, if_neg fun hle => h hle.2]
  rfl

/-- `ChunkSetProtected` of a chunk leaves the node in order. -/
theorem Follows.chunkSetProtected (h : s.Follows L) (hlt : cid < s.core.chunks.length) :
    ∃ e core, s.core.chunkSetProtected cid = .ok (e, core)
      ∧ ({ s with core } : DBServer).Valid := by
  obtain ⟨chunk, hget⟩ := Core.exists_chunk hlt
  rw [Core.chunkSetProtected, Core.chunk_eq hget, Call.ok_bind, Flags.setProtected]
  split
  · exact ⟨_, _, rfl, L, h⟩
  · next hflags =>
    split at hflags
    · next hpres =>
      obtain rfl := Option.some.inj hflags
      exact ⟨_, _, rfl, h.setChunk hget hpres (fun _ => h.chunks cid chunk hget hpres)
        ⟨[], (List.append_nil _).symm⟩⟩
    · cases hflags

/-- `NumHolders` of a chunk. -/
theorem Follows.numHolders (h : s.Follows L) (hlt : cid < s.core.chunks.length) :
    ∃ n, s.sg.numHolders cid = .ok n := by
  rw [← h.group.length_eq] at hlt
  rw [ServerGroup.numHolders, ServerGroup.chunk, List.getElem?_eq_getElem hlt]
  exact ⟨_, rfl⟩

theorem Follows.numHolders_eq_error (h : s.Follows L) (hge : ¬ cid < s.core.chunks.length) :
    s.sg.numHolders cid = .error .bounds := by
  rw [← h.group.length_eq] at hge
  rw [ServerGroup.numHolders, ServerGroup.chunk, List.getElem?_eq_none (not_lt.mp hge)]
  rfl

/-- `OpProtect` of a chunk leaves the node in order. -/
theorem Follows.protect (h : s.Follows L) {key : Bytes} (hlen : 4 ≤ key.length)
    (hlt : leNat (key.take 4) < s.core.chunks.length) :
    ∃ r s', s.protect key = .ok (r, s') ∧ s'.Valid := by
  obtain ⟨n, hn⟩ := h.numHolders hlt
  rw [DBServer.protect, chunkID_eq hlen, Call.ok_bind, hn, Call.ok_bind]
  split
  · obtain ⟨e, core, hx, hv⟩ := h.chunkSetProtected hlt
    rw [hx]
    exact ⟨_, _, rfl, hv⟩
  · exact ⟨_, _, rfl, L, h⟩

/-- `AddServerToGroup` leaves the node in order. -/
theorem Follows.addServerToGroup (h : s.Follows L) (addr : String) :
    ∃ e sg, s.sg.addServerToGroup addr = .ok (e, sg) ∧ ({ s with sg } : DBServer).Valid := by
  obtain ⟨⟨e, sg⟩, hx, hmade⟩ : ∃ p, s.sg.addServerToGroup addr = .ok p ∧ p.2.made := by
    rw [ServerGroup.addServerToGroup]
    split
    · exact ⟨_, rfl, h.made⟩
    · rw [if_pos h.made]
      exact ⟨_, rfl, h.made⟩
  exact ⟨e, sg, hx, L, h.pos, h.group.addServerToGroup _ hx, hmade, h.ready, h.chunks, h.transfers⟩

/-- A transfer that starts stands nowhere yet. -/
theorem Follows.addTransfer (h : s.Follows L) (cid : ℕ) :
    ({ s with transfers := s.transfers ++ [.dialing cid] } : DBServer).Valid := by
  refine ⟨L, h.pos, h.group, h.made, h.ready, h.chunks, fun t ht => ?_⟩
  rcases List.mem_append.mp ht with ht | ht
  · exact h.transfers t ht
  · rw [List.mem_singleton.mp ht]
    trivial

variable {marshal : ℕ → ℤ → ServerMap → Bytes} {m : Message}

/-- The call returns, and leaves the node in order. -/
def Serves {α : Type} (x : Call (α × DBServer)) : Prop := ∃ r s', x = .ok (r, s') ∧ s'.Valid

theorem Valid.serves (h : s.Valid) {α : Type} (r : α) : Serves (.ok (r, s)) := ⟨r, s, rfl, h⟩

theorem Follows.serves (h : s.Follows L) {op : Op} (f : Option CoreError → Operation × Bytes)
    (hop : op.Timed ∨ ∀ pm, s.core.Maps (s.core.chunkIndex op.key) pm → pm.value op.key = none) :
    Serves (s.request op >>= fun p => pure (f p.1, p.2)) := by
  obtain ⟨e, s', hx, hv⟩ := h.request hop
  rw [hx]
  exact hv.serves _

/-- **A message that is accepted is answered**, and leaves the node in order. -/
theorem Follows.respond (h : s.Follows L) (hacc : s.Accepts m) :
    Serves (s.respond marshal m) := by
  have hv : s.Valid := ⟨L, h⟩
  rw [DBServer.respond]
  refine iteInduction (fun _ => ?_) fun _ => ?_
  · obtain ⟨v, hget⟩ := h.get m.key
    rw [hget]
    exact hv.serves _
  refine iteInduction (fun _ => h.serves outcome (Or.inl trivial)) fun _ => ?_
  refine iteInduction (fun _ => h.serves (fun _ => (0, [])) (Or.inl trivial)) fun _ => ?_
  refine iteInduction (fun _ => h.serves outcome (Or.inl trivial)) fun _ => ?_
  refine iteInduction (fun htype => h.serves outcome (hacc.del htype)) fun _ => ?_
  refine iteInduction (fun htype => ?_) fun _ => ?_
  · rw [chunkID_eq (hacc.transfer htype)]
    exact (h.addTransfer _).serves _
  refine iteInduction (fun _ => hv.serves _) fun _ => ?_
  refine iteInduction (fun _ => ?_) fun _ => ?_
  · obtain ⟨e, sg, hx, hv⟩ := h.addServerToGroup (bytesText m.key)
    rw [hx]
    exact hv.serves _
  refine iteInduction (fun htype => ?_) fun _ => ?_
  · obtain ⟨hlen, hlt⟩ := hacc.chunk (Or.inl htype)
    obtain ⟨length, hx⟩ := h.lengthOfChunk hlt
    rw [chunkID_eq hlen, Call.ok_bind, hx]
    exact hv.serves _
  refine iteInduction (fun htype => ?_) fun _ => ?_
  · obtain ⟨hlen, hlt⟩ := hacc.chunk (Or.inr htype)
    exact h.protect hlen hlt
  refine iteInduction (fun _ => hv.serves _) fun _ => ?_
  exact iteInduction (fun _ => hv.serves _) fun _ => hv.serves _

/-- A message whose type takes a chunk ID, if it is too short or that of no chunk. -/
theorem chunkID_fault {α : Type} {key : Bytes} {f : ℕ → Call α}
    (hf : ∀ cid, ¬ cid < s.core.chunks.length → f cid = .error .bounds)
    (hbad : ¬ (4 ≤ key.length ∧ leNat (key.take 4) < s.core.chunks.length)) :
    (chunkID key >>= f) = .error .bounds := by
  by_cases hlen : 4 ≤ key.length
  · rw [chunkID_eq hlen, Call.ok_bind]
    exact hf _ fun hlt => hbad ⟨hlen, hlt⟩
  · rw [chunkID_eq_error hlen]
    rfl

/-- **A message that is not accepted is an index or a slice out of range.** -/
theorem Follows.respond_fault (h : s.Follows L) (hacc : ¬ s.Accepts m) :
    s.respond marshal m = .error .bounds := by
  obtain ⟨type, id, key, value⟩ := m
  by_contra hno
  refine hacc ⟨?_, ?_, ?_⟩ <;> dsimp only
  · rintro rfl
    by_contra hdel
    obtain ⟨hlen, hkey⟩ := not_or.mp hdel
    obtain ⟨pm, hkey⟩ := not_forall.mp hkey
    obtain ⟨hpm, hkey⟩ := Classical.not_imp.mp hkey
    refine hno ?_
    change (s.request (.del key value) >>= fun p => pure (outcome p.1, p.2)) = _
    rw [h.request_short hpm hkey hlen]
    rfl
  · rintro rfl
    by_contra hlen
    refine hno ?_
    change (chunkID key >>= _) = _
    rw [chunkID_eq_error hlen]
    rfl
  · rintro (rfl | rfl) <;> by_contra hbad <;> refine hno (chunkID_fault (fun cid hge => ?_) hbad)
    · rw [Core.lengthOfChunk, Core.chunk_eq_error hge]
      rfl
    · rw [h.numHolders_eq_error hge]
      rfl

theorem Follows.processMessage (h : s.Follows L) (hacc : s.stopped = false → s.Accepts m) :
    Serves (s.processMessage marshal m) := by
  rw [DBServer.processMessage]
  refine iteInduction (fun _ => Valid.serves ⟨L, h⟩ _) fun hrun => ?_
  obtain ⟨r, s', hx, hv⟩ : Serves (s.respond marshal m) :=
    h.respond (hacc (Bool.eq_false_iff.mpr hrun))
  rw [hx]
  exact hv.serves _

theorem Follows.processMessage_fault (h : s.Follows L) (hrun : s.stopped = false)
    (hacc : ¬ s.Accepts m) : s.processMessage marshal m = .error .bounds := by
  rw [DBServer.processMessage, hrun, if_neg Bool.false_ne_true, h.respond_fault hacc]
  rfl

/-! ## Events -/

/-- A node in order whose connections change is in order, if they are ready. -/
theorem Valid.setConns (h : s.Valid) {conns : List (Reader × Tcp)} (hc : ∀ p ∈ conns, p.1.Ready) :
    ({ s with conns } : DBServer).Valid := by
  obtain ⟨L, h⟩ := h
  exact ⟨L, h.pos, h.group, h.made, hc, h.chunks, h.transfers⟩

theorem Valid.ready (h : s.Valid) : ∀ p ∈ s.conns, p.1.Ready := by
  obtain ⟨L, h⟩ := h
  exact h.ready

/-- **What an event does**: it faults if it is not safe, and otherwise leaves the node in order. -/
def Does (marshal : ℕ → ℤ → ServerMap → Bytes) (s : DBServer) (ev : Event) : Prop :=
  (s.step marshal ev).Ends
    (fun f => (f ≠ .endless → ¬ s.Safe ev) ∧ (s.Arrives ev → f ≠ .endless))
    fun s' => (s.Safe ev → s'.Valid) ∧ (s.Arrives ev → s.Safe ev)

theorem Does.of_ok {ev : Event} {s' : DBServer} (hx : s.step marshal ev = .ok s') (hv : s'.Valid)
    (hsafe : s.Safe ev) : s.Does marshal ev := by
  rw [Does, hx]
  exact ⟨fun _ => hv, fun _ => hsafe⟩

theorem Does.of_error {ev : Event} {f : Fault} (hx : s.step marshal ev = .error f)
    (hf : f ≠ .endless) (hsafe : ¬ s.Safe ev) : s.Does marshal ev := by
  rw [Does, hx]
  exact ⟨fun _ => hsafe, fun _ => hf⟩

/-- What the loop of a connection does with what it has read. -/
def afterRead (marshal : ℕ → ℤ → ServerMap → Bytes) (s : DBServer) (i : ℕ) :
    Option (Message × Reader × Tcp) → Call DBServer
  | none => .ok { s with conns := s.conns.eraseIdx i }
  | some (m, c, t) => do
    let (_, s) ← s.processMessage marshal m
    return { s with conns := s.conns.set i (c, t) }

theorem step_listen {i : ℕ} {c : Reader} {t : Tcp} (hconn : s.conns[i]? = some (c, t)) :
    s.step marshal (.listen i) = c.read t >>= s.afterRead marshal i := by
  rw [step, listenRequests, hconn]
  dsimp only
  cases c.read t with
  | error f => rfl
  | ok r =>
    rw [Call.ok_bind, Call.ok_bind]
    rcases r with _ | ⟨m, c', t'⟩
    · rfl
    · dsimp only [afterRead]
      cases s.processMessage marshal m <;> rfl

/-- A message that has been read is served, or not accepted. -/
theorem Follows.afterRead (h : s.Follows L) (i : ℕ) {c : Reader} (hready : c.Ready) (t : Tcp) :
    (s.afterRead marshal i (some (m, c, t))).Ends
      (fun f => f = .bounds ∧ ¬ (s.stopped = false → s.Accepts m))
      fun s' => s'.Valid ∧ (s.stopped = false → s.Accepts m) := by
  rw [DBServer.afterRead]
  by_cases hacc : s.stopped = false → s.Accepts m
  · obtain ⟨r, s', hserve, hv⟩ : Serves (s.processMessage marshal m) := h.processMessage hacc
    rw [hserve]
    refine ⟨hv.setConns fun p hp => ?_, hacc⟩
    rcases List.mem_or_eq_of_mem_set hp with hp | rfl
    · exact hv.ready p hp
    · exact hready
  · obtain ⟨hrun, hacc'⟩ := Classical.not_imp.mp hacc
    rw [h.processMessage_fault hrun hacc']
    exact ⟨rfl, hacc⟩

/-- **One turn of a connection.** -/
theorem Follows.listen (h : s.Follows L) (i : ℕ) : s.Does marshal (.listen i) := by
  cases hconn : s.conns[i]? with
  | none =>
    have hstep : s.step marshal (.listen i) = .ok s := by
      rw [step, listenRequests, hconn]
      rfl
    exact .of_ok hstep ⟨L, h⟩ fun c t hct => by cases hconn.symm.trans hct
  | some p =>
    obtain ⟨c, t⟩ := p
    -- what the first frame of this connection has to be
    have hsafe : s.Safe (.listen i) ↔ ∀ src rest, frame (c.stream t) = some (src, rest) →
        WellFormed src ∧ (s.stopped = false → s.Accepts (.ofFrame src)) := by
      refine ⟨fun hall => hall c t hconn, fun hall c' t' hct => ?_⟩
      obtain ⟨rfl, rfl⟩ := Prod.mk.inj (Option.some.inj (hconn.symm.trans hct))
      exact hall
    rw [Does, step_listen hconn]
    have hread := (h.ready _ (List.mem_of_getElem? hconn)).read (t := t)
    refine Call.Ends.seq (hread.mono (fun f hf => ?_) fun r hr => hr) fun r hr => ?_
    · rcases hf with ⟨rfl, hstuck⟩ | ⟨rfl, src, rest, hframe, hbad⟩
      · exact ⟨fun hne => absurd rfl hne, fun harr => absurd hstuck (harr c t hconn).2⟩
      · exact ⟨fun _ hs => hbad (hsafe.mp hs src rest hframe).1, fun _ => by decide⟩
    rcases r with _ | ⟨m, c', t'⟩
    · exact ⟨fun _ => Valid.setConns ⟨L, h⟩ fun p hp => h.ready p (List.mem_of_mem_eraseIdx hp),
        fun harr => hsafe.mpr fun src rest hf => by
          cases (hr (harr c t hconn).1).1.symm.trans hf⟩
    · obtain ⟨⟨src, htook⟩, -⟩ := hr
      obtain rfl : m = .ofFrame src := htook.msg_eq
      have hsafe' : s.Safe (.listen i) ↔ (s.stopped = false → s.Accepts (.ofFrame src)) := by
        rw [hsafe]
        refine ⟨fun hall => (hall src _ htook.frame_eq).2, fun hacc src' rest hf => ?_⟩
        obtain ⟨rfl, -⟩ := Prod.mk.inj (Option.some.inj (htook.frame_eq.symm.trans hf))
        exact ⟨htook.wellFormed, hacc⟩
      rw [hsafe']
      refine (h.afterRead i htook.ready t').mono (fun f hf => ?_) fun s' hs' => ?_
      · exact ⟨fun _ => hf.2, fun _ => hf.1 ▸ by decide⟩
      · exact ⟨fun _ => hs'.1, fun _ => hs'.2⟩

/-- A transfer moves to where it stands. -/
theorem Follows.setTransfer (h : s.Follows L) (j : ℕ) {t : Transfer} (ht : t.Stands s.core L) :
    (s.setTransfer j t).Valid := by
  refine ⟨L, h.pos, h.group, h.made, h.ready, h.chunks, fun t' ht' => ?_⟩
  rcases List.mem_or_eq_of_mem_set ht' with ht' | rfl
  · exact h.transfers t' ht'
  · exact ht

/-- **The end of a dial.** -/
theorem Follows.dial (h : s.Follows L) (j : ℕ) (ok : Bool) : s.Does marshal (.dial j ok) := by
  by_cases hd : ∃ cid, s.transfers[j]? = some (.dialing cid)
  · obtain ⟨cid, htr⟩ := hd
    have hsafe : s.Safe (.dial j ok) ↔ ok = true ∧ cid < s.core.chunks.length := by
      refine ⟨fun hall => hall cid htr, fun hall cid' htr' => ?_⟩
      obtain rfl := Transfer.dialing.inj (Option.some.inj (htr.symm.trans htr'))
      exact hall
    have hstep : s.step marshal (.dial j ok) = if ok then
          s.core.chunk cid >>= fun chunk =>
            pure (s.setTransfer j (if chunk.present then .at cid 0 else .ended))
        else .error .panic := by
      rw [step, DBServer.dial, htr]
    cases ok with
    | false => exact .of_error hstep (by decide) fun hs => Bool.false_ne_true (hsafe.mp hs).1
    | true =>
      rw [if_pos rfl] at hstep
      by_cases hlt : cid < s.core.chunks.length
      · obtain ⟨chunk, hget⟩ := Core.exists_chunk hlt
        rw [Core.chunk_eq hget] at hstep
        refine .of_ok hstep (h.setTransfer j ?_) (hsafe.mpr ⟨rfl, hlt⟩)
        split
        · next hpres => exact ⟨⟨chunk, hget, hpres⟩, boundary_zero _⟩
        · trivial
      · rw [Core.chunk_eq_error hlt] at hstep
        exact .of_error hstep (by decide) fun hs => hlt (hsafe.mp hs).2
  · have hstep : s.step marshal (.dial j ok) = .ok s := by
      rw [step, DBServer.dial]
      split
      · next cid htr => exact absurd ⟨cid, htr⟩ hd
      · rfl
    exact .of_ok hstep ⟨L, h⟩ fun cid htr => absurd ⟨cid, htr⟩ hd

/-- The `PMap` of a chunk that is present. -/
theorem Follows.exists_pm (h : s.Follows L) {cid : ℕ} (hp : s.core.Present cid) :
    ∃ pm, s.core.Maps cid pm ∧ pm.Refines fnv1a64 (L cid)
      ∧ ∀ {β : Type} (f : PMap → Call β),
        (s.core.chunk cid >>= fun chunk => Core.deref chunk.pm >>= f) = f pm := by
  obtain ⟨chunk, hget, hpres⟩ := hp
  obtain ⟨pm, hpm, hr, -⟩ := h.chunks cid chunk hget hpres
  refine ⟨pm, ⟨chunk, hget, hpres, hpm⟩, hr, fun f => ?_⟩
  rw [Core.chunk_eq hget, Call.ok_bind, hpm]
  rfl

/-- **One turn of a transfer, at a record.** -/
theorem Follows.turn_at (h : s.Follows L) {j cid index : ℕ}
    (htr : s.transfers[j]? = some (.at cid index)) : s.Does marshal (.turn j) := by
  obtain ⟨hpres, hb⟩ := h.transfers _ (List.mem_of_getElem? htr)
  obtain ⟨pm, hmaps, hr, hpm⟩ := h.exists_pm hpres
  have hsafe : s.Safe (.turn j) ↔ (index < pm.st.length → pm.Readable index) := by
    refine ⟨fun hall => hall.1 cid index htr pm hmaps, fun hall =>
      ⟨fun cid' index' htr' pm' hm => ?_, fun cid' index' mapped htr' => ?_⟩⟩
    · obtain ⟨rfl, rfl⟩ := Transfer.at.inj (Option.some.inj (htr.symm.trans htr'))
      rwa [hm.unique hmaps]
    · cases htr.symm.trans htr'
  have hstep : s.step marshal (.turn j) = s.turnAt j cid index pm := by
    rw [step, turn, htr]
    exact hpm _
  rw [turnAt] at hstep
  by_cases hlt : index < pm.st.length
  · rw [if_pos hlt] at hstep
    obtain ⟨r, hrec⟩ : ∃ r, recordAt (L cid).log index = some r :=
      hb.resolve_right fun hend => absurd hlt (by rw [hr.isLog.length_eq, hend]; exact lt_irrefl _)
    by_cases hread : pm.Readable index
    · obtain ⟨b, hpresent⟩ := (hr.isPresent_iff hrec).1 hread
      have hs := hsafe.mpr fun _ => hread
      rw [PMap.pairAt_of_shows (hr.isLog.recordAt hrec).shows hpresent, Call.ok_bind] at hstep
      cases b with
      | true => exact .of_ok hstep (h.setTransfer j fun _ => ⟨hpres, r, hrec⟩) hs
      | false =>
        rw [PMap.nextIndex_of_shows (hr.isLog.recordAt hrec).shows] at hstep
        exact .of_ok hstep (h.setTransfer j ⟨hpres, boundary_of_recordAt hrec⟩) hs
    · rw [PMap.pairAt, (hr.isPresent_iff hrec).2 hread] at hstep
      exact .of_error hstep (by decide) fun hs => hread (hsafe.mp hs hlt)
  · rw [if_neg hlt] at hstep
    exact .of_ok hstep (h.setTransfer j trivial) (hsafe.mpr fun hlt' => absurd hlt' hlt)

/-- **One turn of a transfer, behind a pair.** -/
theorem Follows.turn_past (h : s.Follows L) {j cid index : ℕ} {mapped : Bool}
    (htr : s.transfers[j]? = some (.past cid index mapped)) : s.Does marshal (.turn j) := by
  have hsafe : s.Safe (.turn j) ↔ mapped = true := by
    refine ⟨fun hall => hall.2 cid index mapped htr, fun hall =>
      ⟨fun cid' index' htr' => ?_, fun cid' index' mapped' htr' => ?_⟩⟩
    · cases htr.symm.trans htr'
    · obtain ⟨-, -, rfl⟩ := Transfer.past.inj (Option.some.inj (htr.symm.trans htr'))
      exact hall
  cases mapped with
  | false =>
    have hstep : s.step marshal (.turn j) = .error .bounds := by
      rw [step, turn, htr]
      rfl
    exact .of_error hstep (by decide) fun hs => Bool.false_ne_true (hsafe.mp hs)
  | true =>
    obtain ⟨hpres, r, hrec⟩ := h.transfers _ (List.mem_of_getElem? htr) rfl
    obtain ⟨pm, -, hr, hpm⟩ := h.exists_pm hpres
    have hstep : s.step marshal (.turn j) = .ok (s.setTransfer j (.at cid (index + r.size))) := by
      rw [step, turn, htr]
      refine (hpm _).trans ?_
      rw [PMap.nextIndex_of_shows (hr.isLog.recordAt hrec).shows]
      rfl
    exact .of_ok hstep (h.setTransfer j ⟨hpres, boundary_of_recordAt hrec⟩) (hsafe.mpr rfl)

/-- **One turn of a transfer.** -/
theorem Follows.turn (h : s.Follows L) (j : ℕ) : s.Does marshal (.turn j) := by
  by_cases hat : ∃ cid index, s.transfers[j]? = some (.at cid index)
  · obtain ⟨cid, index, htr⟩ := hat
    exact h.turn_at htr
  by_cases hpast : ∃ cid index mapped, s.transfers[j]? = some (.past cid index mapped)
  · obtain ⟨cid, index, mapped, htr⟩ := hpast
    exact h.turn_past htr
  have hstep : s.step marshal (.turn j) = .ok s := by
    rw [step, DBServer.turn]
    split
    · next htr => exact absurd ⟨_, _, htr⟩ hat
    · next htr => exact absurd ⟨_, _, _, htr⟩ hpast
    · rfl
  exact .of_ok hstep ⟨L, h⟩ ⟨fun cid index htr => absurd ⟨cid, index, htr⟩ hat,
    fun cid index mapped htr => absurd ⟨cid, index, mapped, htr⟩ hpast⟩

/-- **The `PMap` of a chunk is replaced.** -/
theorem Follows.replace (h : s.Follows L) {cid : ℕ} {chunk : MetaChunk}
    (hev : s.Enabled (.replace cid chunk)) : s.Does marshal (.replace cid chunk) := by
  obtain ⟨⟨L₀, hchunk⟩, hat⟩ := hev
  refine .of_ok rfl ⟨Function.update L cid L₀, ?_, ?_, h.made, h.ready, h.chunks_setChunk hchunk,
    fun t ht => ?_⟩ trivial
  · rw [Core.length_setChunk]
    exact h.pos
  · rw [Core.length_setChunk]
    exact h.group
  · obtain ⟨t', ht', rfl⟩ := List.mem_map.mp ht
    exact (h.transfers t' ht').unmap fun index heq => hat index (heq ▸ ht')

/-- **One event.** -/
theorem Follows.does (h : s.Follows L) {ev : Event} (hev : s.Enabled ev) : s.Does marshal ev := by
  cases ev with
  | connect t =>
    refine .of_ok rfl (Valid.setConns ⟨L, h⟩ fun p hp => ?_) trivial
    rcases List.mem_append.mp hp with hp | hp
    · exact h.ready p hp
    · rw [List.mem_singleton.mp hp]
      exact Reader.ready_new
  | listen i => exact h.listen i
  | dial j ok => exact h.dial j ok
  | turn j => exact h.turn j
  | replace cid chunk => exact h.replace hev
  | regroup sg =>
    exact .of_ok rfl ⟨L, h.pos, hev.1, hev.2, h.ready, h.chunks, h.transfers⟩ trivial
  | stop => exact .of_ok rfl ⟨L, h.pos, h.group, h.made, h.ready, h.chunks, h.transfers⟩ trivial

/-! ## A new node -/

/-- The chunks that `Create` has made present are empty. -/
theorem returns_chunkSetPresent (dbpath : String) {chunkSize numChunks : ℕ}
    (hsize : chunkSize ≤ 2 ^ 32) :
    ((List.range numChunks).foldlM World.chunkSetPresent
      ⟨.new dbpath chunkSize numChunks, []⟩).Returns fun w =>
        w.core.chunks.length = numChunks ∧ w.core.chunkSize = chunkSize
          ∧ ∀ chunk ∈ w.core.chunks, chunk.Follows (.new chunkSize) := by
  refine Call.Returns.foldlM (fun w cid hw w' hx => ?_) _
    ⟨List.length_replicate, rfl, fun chunk hc => ?_⟩
  · obtain ⟨hlen, hcs, hall⟩ := hw
    rw [World.chunkSetPresent] at hx
    obtain ⟨chunk, hchunk, hx⟩ := Call.bind_eq_ok.mp hx
    split at hx
    · cases hx
      exact ⟨hlen, hcs, hall⟩
    · cases hx
      refine ⟨Core.length_setChunk.trans hlen, hcs, fun x hx => ?_⟩
      rcases List.mem_or_eq_of_mem_set hx with hx | rfl
      · exact hall x hx
      · exact fun _ => ⟨_, rfl, hcs ▸ PMap.refines_new fnv1a64 _ _, hsize⟩
  · rw [List.eq_of_mem_replicate hc]
    exact fun h => absurd h Bool.false_ne_true

theorem made_of_setServerChunks {sg sg' : ServerGroup} {addr : String} {cids : List AmAliveChunk}
    (h : sg.setServerChunks addr cids = .ok sg') : sg'.made = sg.made := by
  rw [ServerGroup.setServerChunks] at h
  split at h
  · cases h
    rfl
  · obtain ⟨p, -, h⟩ := Call.bind_eq_ok.mp h
    obtain ⟨chunks, -, h⟩ := Call.bind_eq_ok.mp h
    obtain ⟨chunks', -, h⟩ := Call.bind_eq_ok.mp h
    cases h
    rfl

/-- **A node that `Create` makes is in order.** -/
theorem valid_create {addr dbpath : String} {chunkSize numChunks : ℕ} {redundancy : ℤ}
    (hpos : 0 < numChunks) (hsize : chunkSize ≤ 2 ^ 32)
    (hx : create addr dbpath chunkSize numChunks redundancy = .ok s) : s.Valid := by
  obtain ⟨w, hw, hx⟩ := Call.bind_eq_ok.mp hx
  obtain ⟨⟨e, sg⟩, hadd, hx⟩ := Call.bind_eq_ok.mp hx
  obtain ⟨sg', hset, hx⟩ := Call.bind_eq_ok.mp hx
  cases hx
  obtain ⟨hlen, -, hall⟩ := returns_chunkSetPresent dbpath hsize w hw
  have hinv := (ServerGroup.inv_create numChunks).addServerToGroup _ hadd
  have hinv' := hinv.setServerChunks (fun c hc => ?_) sg' hset
  · refine ⟨fun _ => .new chunkSize, hlen ▸ hpos, hlen ▸ hinv', ?_, List.forall_mem_nil _,
      fun cid chunk hget => hall chunk (List.mem_of_getElem? hget), List.forall_mem_nil _⟩
    rw [made_of_setServerChunks hset]
    cases hadd
    rfl
  · obtain ⟨cid, hcid, rfl⟩ := List.mem_map.mp hc
    exact List.mem_range.mp hcid

/-! ## Runs -/

/-- **Robustness.**  In every run of safe events from a node in order, the node stays in order; it
faults on no event that is safe, and on every event that is not, if the bytes arrive. -/
theorem survives_iff (marshal : ℕ → ℤ → ServerMap → Bytes) {s₀ s : DBServer} {evs : List Event}
    (h₀ : s₀.Valid) (hrun : Run (SafeStep · marshal) s₀ evs s) :
    s.Valid ∧ ∀ ev, s.Enabled ev → (s.Faults marshal ev → ¬ s.Safe ev)
      ∧ (s.Arrives ev → ¬ s.Safe ev → s.Faults marshal ev) := by
  have hv : s.Valid := by
    refine hrun.invariant (I := Valid) ?_ h₀
    rintro s ev s' ⟨L, h⟩ ⟨hev, hsafe, hstep⟩
    exact ((h.does hev).returns s' hstep).1 hsafe
  refine ⟨hv, fun ev hev => ?_⟩
  obtain ⟨L, h⟩ := hv
  have hdoes : s.Does marshal ev := h.does hev
  constructor
  · rintro ⟨f, hf, hstep⟩
    exact (Call.Ends.of_error hdoes hstep).1 hf
  · intro harr hsafe
    cases hstep : s.step marshal ev with
    | ok s' => exact absurd ((hdoes.returns s' hstep).2 harr) hsafe
    | error f => exact ⟨f, (Call.Ends.of_error hdoes hstep).2 harr, hstep⟩

/-- A connection on which the bytes arrive at once. -/
def sends (bytes : Bytes) : Tcp := ⟨bytes, [bytes.length]⟩

/-- A configuration that is not looked at. -/
def noConf : ℕ → ℤ → ServerMap → Bytes := fun _ _ _ => []

/-- A node of one chunk, in memory. -/
def oneChunk : Call DBServer := create "a" "" 64 1 0

theorem exists_oneChunk {P : DBServer → Prop} [DecidablePred P]
    (h : oneChunk.map (fun s => decide (P s)) = .ok true) :
    ∃ s, oneChunk = .ok s ∧ s.Valid ∧ P s := by
  obtain ⟨s, hs, hP⟩ := Call.map_eq_ok.mp h
  exact ⟨s, hs, valid_create (by decide) (by decide) hs, of_decide_eq_true hP⟩

/-- A `Set` of the key `1`. -/
def setOne : Message := ⟨Operation.set, 7, [1], PMap.stamped 5 []⟩

/-- The first frame a peer sends is the one of the `Set`. -/
theorem frame_setOne :
    frame (Reader.new.stream (sends setOne.encode)) = some (setOne.encode, []) := by
  decide +kernel

theorem accepts_setOne (s : DBServer) : s.Accepts (.ofFrame setOne.encode) where
  del h := absurd h (by decide)
  transfer h := absurd h (by decide)
  chunk h := absurd h (by decide)

/-- The node stores a pair that a peer sends. -/
theorem survives_iff_set : ∃ s₀ s, oneChunk = .ok s₀
    ∧ Run (SafeStep · noConf) s₀ [.connect (sends setOne.encode), .listen 0] s
    ∧ s.core.get [1] = .ok (.ok (some (PMap.stamped 5 [])))
    ∧ s.Valid ∧ ∀ ev, s.Enabled ev → (s.Faults noConf ev → ¬ s.Safe ev)
      ∧ (s.Arrives ev → ¬ s.Safe ev → s.Faults noConf ev) := by
  obtain ⟨s₀, hs₀, hv, hconns, hget⟩ : ∃ s, oneChunk = .ok s ∧ s.Valid ∧ s.conns = []
      ∧ (s.step noConf (.connect (sends setOne.encode)) >>= fun s =>
          s.step noConf (.listen 0) >>= fun s => s.core.get [1])
        = .ok (.ok (some (PMap.stamped 5 []))) := exists_oneChunk (by decide +kernel)
  obtain ⟨s₁, hconnect, hget⟩ := Call.bind_eq_ok.mp hget
  cases hconnect
  obtain ⟨s, hlisten, hget⟩ := Call.bind_eq_ok.mp hget
  have hrun : Run (SafeStep · noConf) s₀ [.connect (sends setOne.encode), .listen 0] s := by
    refine .cons ⟨trivial, trivial, rfl⟩ (.cons ⟨trivial, fun c t hct src rest hf => ?_, hlisten⟩
      (.refl _))
    dsimp only at hct
    rw [hconns] at hct
    cases hct
    obtain ⟨rfl, -⟩ := Prod.mk.inj (Option.some.inj (frame_setOne.symm.trans hf))
    exact ⟨by decide, fun _ => accepts_setOne _⟩
  exact ⟨s₀, s, hs₀, hrun, hget, survives_iff noConf hv hrun⟩

/-- What becomes of the node after the events. -/
def fate (evs : List Event) (s : DBServer) : Call Unit :=
  (fun _ => ()) <$> evs.foldlM (step noConf) s

/-- A peer brings a node down: a frame shorter than its header; a `Del` without a timestamp; a
message without the chunk ID; a transfer to an address that does not answer. -/
theorem peer_crashes_node : ∃ s, oneChunk = .ok s ∧ s.Valid
    ∧ s.fate [.connect (sends (List.replicate 13 0)), .listen 0] = .error .bounds
    ∧ s.fate [.connect (sends (wire [setOne, ⟨Operation.del, 8, [1], []⟩])), .listen 0, .listen 0]
      = .error .bounds
    ∧ s.fate [.connect (sends (wire [⟨Operation.protect, 7, [], []⟩])), .listen 0] = .error .bounds
    ∧ s.fate [.connect (sends (wire [⟨Operation.transfer, 7, [0, 0, 0, 0], []⟩])), .listen 0,
      .dial 0 false] = .error .panic := by
  exact exists_oneChunk (by decide +kernel)

end DBServer

end Treeless
