import Treeless.Machinery.Bytes
import Treeless.Machinery.Run
import Mathlib.Data.List.AList

/-!
# Dist/ServerGroup — who holds which chunk

A server group stores the same relation twice: of each server the chunks it last reported
(`heldChunks`), and of each chunk the servers that hold it (`holders`).

    servers : address ──► *VirtualServer ──► heldChunks : [(chunk, checksum)]
    chunks  : chunk   ──► holders : [*VirtualServer]

Every setter updates both.  The chunks change by two loops only: `removeHolder` of one server from a
list of chunks, and `addHolder` to a list of chunks; `Holders` says what they do to the relation.
-/

namespace Treeless

/-- A chunk as a server reports it. -/
structure AmAliveChunk where
  id : ℕ
  checksum : UInt64
  deriving DecidableEq, Repr

structure VirtualServer where
  phy : String
  dead : Bool
  heldChunks : List AmAliveChunk

namespace VirtualServer

/-- The report on a chunk; `none` is `nil`. -/
def getChunk (s : VirtualServer) (cid : ℕ) : Option AmAliveChunk :=
  s.heldChunks.find? fun c => c.id = cid

/-- The server has reported the chunk. -/
def Reports (s : VirtualServer) (cid : ℕ) : Prop := ∃ c ∈ s.heldChunks, c.id = cid

instance (s : VirtualServer) (cid : ℕ) : Decidable (s.Reports cid) :=
  inferInstanceAs (Decidable (∃ c ∈ s.heldChunks, _))

theorem not_reports {s : VirtualServer} (h : s.heldChunks = []) (cid : ℕ) : ¬ s.Reports cid := by
  rintro ⟨c, hc, -⟩
  rw [h] at hc
  cases hc

end VirtualServer

/-- The holders of a chunk, by their pointers. -/
abbrev VirtualChunk := List ℕ

namespace VirtualChunk

def hasHolder (c : VirtualChunk) (s : ℕ) : Bool := c.contains s

/-- Removes the first occurrence of a server: the last holder takes its place. -/
def removeHolder (c : VirtualChunk) (s : ℕ) : VirtualChunk :=
  if s ∈ c then (c.set (c.idxOf s) (c.getLastD s)).dropLast else c

def addHolder (c : VirtualChunk) (s : ℕ) : VirtualChunk := c ++ [s]

end VirtualChunk

/-- The errors of a server group. -/
inductive GroupError
  | notKnown
  | alreadyKnown
  deriving DecidableEq, Repr

/-- The text of an error. -/
def GroupError.text : GroupError → String
  | notKnown => "Server not known"
  | alreadyKnown => "Server already known"

/-- The map of the servers and the memory of their pointers: those from `fresh` on have not been
allocated, and a server that JSON gave as `null` is a `nil` pointer. -/
structure ServerMap where
  /-- The map has been made. -/
  made : Bool
  servers : AList fun _ : String => Option ℕ
  heap : ℕ → VirtualServer
  fresh : ℕ

/-- A group as JSON gives it: of every server only the address. -/
structure SerializableServerGroup extends ServerMap where
  numChunks : ℕ
  distinct : ∀ a a' s, servers.lookup a = some (some s) → servers.lookup a' = some (some s) → a = a'
  lt_fresh : ∀ a s, servers.lookup a = some (some s) → s < fresh
  blank : ∀ s, (heap s).heldChunks = []

structure ServerGroup extends ServerMap where
  chunks : List VirtualChunk

namespace ServerGroup

def create (numChunks : ℕ) : ServerGroup :=
  ⟨⟨true, ∅, fun _ => ⟨"", false, []⟩, 0⟩, List.replicate numChunks []⟩

def unmarhal (ssg : SerializableServerGroup) : ServerGroup :=
  ⟨ssg.toServerMap, List.replicate ssg.numChunks []⟩

variable (sg : ServerGroup)

/-- A pointer that is not `nil`. -/
def deref : Option ℕ → Call ℕ
  | some p => .ok p
  | none => .error .panic

/-- Changes the chunk `cid`, in range. -/
def modifyChunk (f : VirtualChunk → VirtualChunk) (chunks : List VirtualChunk) (cid : ℕ) :
    Call (List VirtualChunk) :=
  match chunks[cid]? with
  | some c => .ok (chunks.set cid (f c))
  | none => .error .bounds

/-- Removes a server from the chunks of a list. -/
def removeHolders (s : ℕ) (chunks : List VirtualChunk) (cids : List ℕ) : Call (List VirtualChunk) :=
  cids.foldlM (modifyChunk (VirtualChunk.removeHolder · s)) chunks

/-- Adds a server to the chunks of a list that do not have it. -/
def addHolders (s : ℕ) (chunks : List VirtualChunk) (cids : List ℕ) : Call (List VirtualChunk) :=
  cids.foldlM (modifyChunk fun c => if c.hasHolder s then c else c.addHolder s) chunks

/-- Changes a server. -/
def setServer (s : ℕ) (server : VirtualServer) : ServerGroup :=
  { sg with heap := Function.update sg.heap s server }

/-! ## Setters -/

/-- The IDs of the old reports that are not among the new ones. -/
def forgotten (s : VirtualServer) (cids : List AmAliveChunk) : List ℕ :=
  (s.heldChunks.map AmAliveChunk.id).filter fun id => !(cids.any fun c => c.id = id)

def setServerChunks (addr : String) (cids : List AmAliveChunk) : Call ServerGroup :=
  match sg.servers.lookup addr with
  | none => .ok sg
  | some s => do
    let s ← deref s
    let server := sg.heap s
    let chunks ← removeHolders s sg.chunks (forgotten server cids)
    let chunks ← addHolders s chunks (cids.map AmAliveChunk.id)
    return { sg.setServer s { server with dead := false, heldChunks := cids } with chunks }

def serverAlive (addr : String) : Call ServerGroup :=
  match sg.servers.lookup addr with
  | none => .ok sg
  | some s => do
    let s ← deref s
    return sg.setServer s { sg.heap s with dead := false }

def addServerToGroup (addr : String) : Call (Option GroupError × ServerGroup) :=
  match sg.servers.lookup addr with
  | some _ => .ok (some .alreadyKnown, sg)
  | none =>
    -- an assignment to an entry of a map that was not made is a panic
    if sg.made then .ok (none, { sg with
      servers := sg.servers.insert addr (some sg.fresh)
      heap := Function.update sg.heap sg.fresh ⟨addr, false, []⟩
      fresh := sg.fresh + 1 })
    else .error .panic

def removeServer (addr : String) : Call (Option GroupError × ServerGroup) :=
  match sg.servers.lookup addr with
  | none => .ok (some .notKnown, sg)
  | some s => do
    let s ← deref s
    let chunks ← removeHolders s sg.chunks ((sg.heap s).heldChunks.map AmAliveChunk.id)
    return (none, { sg with servers := sg.servers.erase addr, chunks })

def deadServer (addr : String) : Call (Option GroupError × ServerGroup) :=
  match sg.servers.lookup addr with
  | none => .ok (some .notKnown, sg)
  | some s => do
    let s ← deref s
    let server := sg.heap s
    let chunks ← removeHolders s sg.chunks (server.heldChunks.map AmAliveChunk.id)
    return (none, { sg.setServer s { server with dead := true, heldChunks := [] } with chunks })

/-! ## Getters -/

/-- `sg.chunks[cid]`, in range. -/
def chunk (cid : ℕ) : Call VirtualChunk :=
  match sg.chunks[cid]? with
  | some c => .ok c
  | none => .error .bounds

def numHolders (cid : ℕ) : Call ℕ := List.length <$> sg.chunk cid

/-- The checksum a holder has reported of a chunk. -/
def checksum (cid s : ℕ) : Call UInt64 :=
  match (sg.heap s).getChunk cid with
  | some c => .ok c.checksum
  | none => .error .panic

/-- The loop of `IsSynched`. -/
def allSum (cid : ℕ) (sum : UInt64) : VirtualChunk → Call Bool
  | [] => .ok true
  | h :: holders => do
    let sum2 ← sg.checksum cid h
    if sum ≠ sum2 then return false else allSum cid sum holders

def isSynched (cid : ℕ) : Call Bool := do
  match ← sg.chunk cid with
  | [] => return true
  | [_] => return true
  | h :: holders =>
    let sum ← sg.checksum cid h
    sg.allSum cid sum holders

end ServerGroup

/-! ## The holders of a chunk -/

namespace VirtualChunk

variable {c : VirtualChunk} {s t : ℕ}

/-- **The swap removes the server and nothing else.** -/
theorem perm_removeHolder (c : VirtualChunk) (s : ℕ) : (c.removeHolder s).Perm (c.erase s) := by
  rw [removeHolder]
  split
  · next hs =>
    obtain ⟨pre, post, rfl, hpre⟩ := List.eq_append_cons_of_mem hs
    rw [List.idxOf_append_of_notMem hpre, List.idxOf_cons_self, Nat.add_zero,
      List.erase_append_right _ hpre, List.erase_cons_head,
      List.set_append_right _ _ (Nat.le_refl _), Nat.sub_self, List.set_cons_zero]
    rcases List.eq_nil_or_concat post with rfl | ⟨post, z, rfl⟩
    · simp
    · have hlast : (pre ++ s :: (post ++ [z])).getLastD s = z := by
        rw [← List.cons_append, ← List.append_assoc, List.getLastD_concat]
      rw [List.concat_eq_append, hlast, ← List.cons_append, ← List.append_assoc,
        List.dropLast_concat]
      refine List.Perm.append_left pre ?_
      exact (List.perm_append_singleton z post).symm
  · next hs => rw [List.erase_of_not_mem hs]

theorem nodup_removeHolder (h : c.Nodup) : (c.removeHolder s).Nodup :=
  (perm_removeHolder c s).nodup_iff.mpr (h.erase s)

theorem mem_removeHolder (h : c.Nodup) : t ∈ c.removeHolder s ↔ t ∈ c ∧ t ≠ s := by
  rw [(perm_removeHolder c s).mem_iff, h.mem_erase_iff, and_comm]

end VirtualChunk

/-- The holders of the chunks, without repetition, are the relation `R`. -/
def Holders (chunks : List VirtualChunk) (R : ℕ → ℕ → Prop) : Prop :=
  ∀ cid c, chunks[cid]? = some c → c.Nodup ∧ ∀ s, s ∈ c ↔ R cid s

namespace Holders

variable {chunks : List VirtualChunk} {R R' : ℕ → ℕ → Prop} {cid s : ℕ}

theorem congr (h : Holders chunks R) (hR : ∀ cid < chunks.length, ∀ s, R cid s ↔ R' cid s) :
    Holders chunks R' := fun cid c hc =>
  ⟨(h cid c hc).1, fun s => ((h cid c hc).2 s).trans (hR cid (List.getElem?_eq_some_iff.mp hc).1 s)⟩

/-- The relation `R` with the server `s` in all the chunks of a list, if `b`, or in none of them. -/
def assign (R : ℕ → ℕ → Prop) (s : ℕ) (cids : List ℕ) (b : Prop) (cid t : ℕ) : Prop :=
  if t = s ∧ cid ∈ cids then b else R cid t

/-- A function of holders that has the server `s` among them, if `b`, or not. -/
def Assigns (s : ℕ) (b : Prop) (f : VirtualChunk → VirtualChunk) : Prop :=
  ∀ c : VirtualChunk, c.Nodup → (f c).Nodup ∧ ∀ t, t ∈ f c ↔ if t = s then b else t ∈ c

/-- **A change of one chunk.** -/
theorem modifyChunk {b : Prop} {f : VirtualChunk → VirtualChunk} (hf : Assigns s b f)
    (h : Holders chunks R) (hcid : cid < chunks.length) :
    ∃ chunks', ServerGroup.modifyChunk f chunks cid = .ok chunks'
      ∧ chunks'.length = chunks.length ∧ Holders chunks' (assign R s [cid] b) := by
  have hget := List.getElem?_eq_getElem hcid
  refine ⟨_, by rw [ServerGroup.modifyChunk, hget], List.length_set, fun cid' c hc => ?_⟩
  rw [List.getElem?_set] at hc
  split at hc
  · next heq =>
    subst heq
    obtain ⟨hnd, hmem⟩ := h _ _ hget
    obtain rfl := Option.some.inj hc
    refine ⟨(hf _ hnd).1, fun t => ?_⟩
    rw [(hf _ hnd).2, hmem, assign]
    simp
  · next hne =>
    refine ⟨(h cid' c hc).1, fun t => ?_⟩
    rw [(h cid' c hc).2, assign, if_neg fun h => hne (List.mem_singleton.mp h.2).symm]

/-- **The change of a list of chunks**, one after the other. -/
theorem foldlM {b : Prop} {f : VirtualChunk → VirtualChunk} (hf : Assigns s b f) :
    ∀ (cids : List ℕ) {chunks : List VirtualChunk} {R : ℕ → ℕ → Prop}, Holders chunks R →
    (∀ cid ∈ cids, cid < chunks.length) →
    ∃ chunks', cids.foldlM (ServerGroup.modifyChunk f) chunks = .ok chunks'
      ∧ chunks'.length = chunks.length ∧ Holders chunks' (assign R s cids b)
  | [], chunks, R, h, _ => ⟨chunks, rfl, rfl, h.congr fun cid _ t => by simp [assign]⟩
  | cid :: cids, chunks, R, h, hlt => by
      obtain ⟨chunks₁, hmod, hlen₁, h₁⟩ := h.modifyChunk hf (hlt cid List.mem_cons_self)
      obtain ⟨chunks', hrest, hlen, h'⟩ := h₁.foldlM hf cids fun cid' hcid' =>
        hlen₁ ▸ hlt cid' (List.mem_cons_of_mem _ hcid')
      refine ⟨chunks', ?_, hlen.trans hlen₁, h'.congr fun cid' _ t => ?_⟩
      · rw [List.foldlM_cons, hmod]
        exact hrest
      · simp only [assign, List.mem_cons, List.not_mem_nil, or_false]
        by_cases hts : t = s
        · by_cases h1 : cid' ∈ cids <;> by_cases h2 : cid' = cid <;> simp [hts, h1, h2]
        · simp [hts]

theorem assigns_removeHolder (s : ℕ) : Assigns s False (VirtualChunk.removeHolder · s) :=
  fun c h => ⟨VirtualChunk.nodup_removeHolder h, fun t => by
    rw [VirtualChunk.mem_removeHolder h]
    by_cases hts : t = s <;> simp [hts]⟩

theorem assigns_addHolder (s : ℕ) :
    Assigns s True fun c => if c.hasHolder s then c else c.addHolder s := fun c h => by
  dsimp only
  split
  · next hs =>
    refine ⟨h, fun t => ?_⟩
    have hmem : s ∈ c := List.contains_iff_mem.mp hs
    by_cases hts : t = s <;> simp [hts, hmem]
  · next hs =>
    have hmem : s ∉ c := fun hmem => hs (List.contains_iff_mem.mpr hmem)
    refine ⟨?_, fun t => ?_⟩
    · rw [VirtualChunk.addHolder, ← List.concat_eq_append]
      exact h.concat hmem
    · by_cases hts : t = s <;> simp [VirtualChunk.addHolder, hts]

end Holders

/-! ## The invariant -/

namespace ServerGroup

variable {sg sg' : ServerGroup} {addr : String} {n s : ℕ}

/-- The server is one of the group. -/
def Known (sg : ServerGroup) (s : ℕ) : Prop := ∃ addr, sg.servers.lookup addr = some (some s)

/-- The server is known and has reported the chunk. -/
def Holding (sg : ServerGroup) (cid s : ℕ) : Prop := sg.Known s ∧ (sg.heap s).Reports cid

/-- The two sides of the relation agree, over a fixed number of chunks. -/
structure Inv (numChunks : ℕ) (sg : ServerGroup) : Prop where
  length_eq : sg.chunks.length = numChunks
  holders : Holders sg.chunks sg.Holding
  /-- A server reports chunks of the group. -/
  reports_lt : ∀ s cid, (sg.heap s).Reports cid → cid < numChunks
  /-- A server has one address. -/
  distinct : ∀ a a' s, sg.servers.lookup a = some (some s) → sg.servers.lookup a' = some (some s) →
    a = a'
  lt_fresh : ∀ a s, sg.servers.lookup a = some (some s) → s < sg.fresh

theorem holders_replicate {R : ℕ → ℕ → Prop} (n : ℕ) (hR : ∀ cid s, ¬ R cid s) :
    Holders (List.replicate n []) R := fun cid c hc => by
  obtain ⟨-, rfl⟩ := List.getElem?_eq_some_iff.mp hc
  rw [List.getElem_replicate]
  exact ⟨.nil, fun s => iff_of_false List.not_mem_nil (hR cid s)⟩

theorem inv_create (numChunks : ℕ) : (create numChunks).Inv numChunks :=
  ⟨List.length_replicate, holders_replicate _ fun cid _ h => VirtualServer.not_reports rfl cid h.2,
    fun _ cid h => absurd h (VirtualServer.not_reports rfl cid), nofun, nofun⟩

theorem inv_unmarhal (ssg : SerializableServerGroup) : (unmarhal ssg).Inv ssg.numChunks :=
  ⟨List.length_replicate,
    holders_replicate _ fun cid s h => VirtualServer.not_reports (ssg.blank s) cid h.2,
    fun s cid h => absurd h (VirtualServer.not_reports (ssg.blank s) cid), ssg.distinct,
    ssg.lt_fresh⟩

/-- The chunks of the reports, by their IDs. -/
theorem mem_ids {s : VirtualServer} {cid : ℕ} :
    cid ∈ s.heldChunks.map AmAliveChunk.id ↔ s.Reports cid := by
  simp [VirtualServer.Reports]

/-- **A server with other reports**, and the chunks changed accordingly. -/
theorem Inv.setServer (h : sg.Inv n) (hs : sg.servers.lookup addr = some (some s))
    (server : VirtualServer) {chunks : List VirtualChunk} (hlen : chunks.length = n)
    (hlt : ∀ cid, server.Reports cid → cid < n)
    (hchunks : Holders chunks fun cid t =>
      if t = s then server.Reports cid else sg.Holding cid t) :
    Inv n { sg.setServer s server with chunks } := by
  refine ⟨hlen, hchunks.congr fun cid _ t => ?_, fun t cid ht => ?_, h.distinct, h.lt_fresh⟩
  · show _ ↔ sg.Known t ∧ (Function.update sg.heap s server t).Reports cid
    by_cases hts : t = s
    · subst hts
      rw [if_pos rfl, Function.update_self]
      exact (and_iff_right ⟨addr, hs⟩).symm
    · rw [if_neg hts, Function.update_of_ne hts]
      rfl
  · dsimp only [ServerGroup.setServer] at ht
    by_cases hts : t = s
    · subst hts
      rw [Function.update_self] at ht
      exact hlt cid ht
    · rw [Function.update_of_ne hts] at ht
      exact h.reports_lt t cid ht

/-- The calls that change a group. -/
inductive Event
  | addServerToGroup (addr : String)
  | setServerChunks (addr : String) (cids : List AmAliveChunk)
  | serverAlive (addr : String)
  | deadServer (addr : String)
  | removeServer (addr : String)

/-- The call, with chunks of the group, takes it from `sg` to `sg'`. -/
def Steps (sg : ServerGroup) : Event → ServerGroup → Prop
  | .addServerToGroup addr, sg' => ∃ e, sg.addServerToGroup addr = .ok (e, sg')
  | .setServerChunks addr cids, sg' =>
    (∀ c ∈ cids, c.id < sg.chunks.length) ∧ sg.setServerChunks addr cids = .ok sg'
  | .serverAlive addr, sg' => sg.serverAlive addr = .ok sg'
  | .deadServer addr, sg' => ∃ e, sg.deadServer addr = .ok (e, sg')
  | .removeServer addr, sg' => ∃ e, sg.removeServer addr = .ok (e, sg')

theorem deref_eq {p : Option ℕ} (h : deref p = .ok s) : p = some s := by
  cases p with
  | none => cases h
  | some p => rw [Except.ok.inj h]

/-- **The loop that takes a server off the chunks it reports** does not fault. -/
theorem Inv.removeHolders (h : sg.Inv n) (s : ℕ) (cids : List ℕ)
    (hcids : ∀ cid ∈ cids, (sg.heap s).Reports cid) :
    ∃ chunks, ServerGroup.removeHolders s sg.chunks cids = .ok chunks
      ∧ chunks.length = n ∧ Holders chunks (Holders.assign sg.Holding s cids False) :=
  h.length_eq ▸ h.holders.foldlM (Holders.assigns_removeHolder s) cids fun cid hcid =>
    h.length_eq ▸ h.reports_lt s cid (hcids cid hcid)

theorem mem_forgotten {s : VirtualServer} {cids : List AmAliveChunk} {cid : ℕ} :
    cid ∈ forgotten s cids ↔ s.Reports cid ∧ cid ∉ cids.map AmAliveChunk.id := by
  rw [forgotten, List.mem_filter, mem_ids]
  simp

/-- **Forgotten chunks removed and new ones added** leave the new reports. -/
theorem assign_forgotten {cids : List AmAliveChunk} {cid t : ℕ} :
    Holders.assign (Holders.assign sg.Holding s (forgotten (sg.heap s) cids) False) s
        (cids.map AmAliveChunk.id) True cid t
      ↔ if t = s then cid ∈ cids.map AmAliveChunk.id else sg.Holding cid t := by
  simp only [Holders.assign, mem_forgotten]
  by_cases hts : t = s
  · subst hts
    by_cases hnew : cid ∈ cids.map AmAliveChunk.id
    · simp only [hnew, true_and, and_self, if_true]
    · simp only [hnew, not_false_eq_true, and_true, and_false, if_false, true_and, if_true,
        iff_false]
      split
      · exact id
      · next hold => exact fun h => hold h.2
  · simp only [hts, false_and, if_false]

/-- **A known server reports chunks of the group**: the call returns. -/
theorem Inv.exists_setServerChunks (h : sg.Inv n) (hp : sg.servers.lookup addr = some (some s))
    {cids : List AmAliveChunk} (hlt : ∀ c ∈ cids, c.id < n) :
    ∃ sg', sg.setServerChunks addr cids = .ok sg' ∧ sg'.Inv n ∧ sg'.servers = sg.servers
      ∧ sg'.made = sg.made := by
  obtain ⟨chunks₁, hremove, hlen₁, h₁⟩ := h.removeHolders s (forgotten (sg.heap s) cids)
    fun cid hcid => (mem_forgotten.mp hcid).1
  obtain ⟨chunks₂, hadd, hlen₂, h₂⟩ := h₁.foldlM (Holders.assigns_addHolder s)
    (cids.map AmAliveChunk.id) fun cid hcid => by
      obtain ⟨c, hc, rfl⟩ := List.mem_map.mp hcid
      rw [hlen₁]
      exact hlt c hc
  refine ⟨_, ?_, h.setServer hp { sg.heap s with dead := false, heldChunks := cids }
    (hlen₂.trans hlen₁) (fun cid hcid => ?_) (h₂.congr fun cid _ t => ?_), rfl, rfl⟩
  · rw [ServerGroup.setServerChunks, hp]
    dsimp only [deref]
    rw [Call.ok_bind, hremove, Call.ok_bind, ServerGroup.addHolders, hadd]
    rfl
  · obtain ⟨c, hc, rfl⟩ := hcid
    exact hlt c hc
  · rw [assign_forgotten, ← mem_ids]

theorem Inv.setServerChunks (h : sg.Inv n) {cids : List AmAliveChunk}
    (hlt : ∀ c ∈ cids, c.id < n) : (sg.setServerChunks addr cids).Returns (Inv n) := by
  intro sg' hx
  rcases hp : sg.servers.lookup addr with _ | _ | s
  · rw [ServerGroup.setServerChunks, hp] at hx
    cases hx
    exact h
  · rw [ServerGroup.setServerChunks, hp] at hx
    cases hx
  · obtain ⟨sg₁, hset, h₁, -⟩ := h.exists_setServerChunks hp hlt
    cases hset.symm.trans hx
    exact h₁

theorem Inv.serverAlive (h : sg.Inv n) : (sg.serverAlive addr).Returns (Inv n) := by
  intro sg' hx
  rw [ServerGroup.serverAlive] at hx
  split at hx
  · cases hx
    exact h
  · next p hp =>
    obtain ⟨s, hs, hx⟩ := Call.bind_eq_ok.mp hx
    rw [deref_eq hs] at hp
    cases hx
    refine h.setServer hp { sg.heap s with dead := false } h.length_eq (h.reports_lt s)
      (h.holders.congr fun cid _ t => ?_)
    split
    · next hts =>
      subst hts
      exact and_iff_right ⟨addr, hp⟩
    · rfl

/-- **A server removed from all the chunks it reports** holds none. -/
theorem assign_held {cid t : ℕ} :
    Holders.assign sg.Holding s ((sg.heap s).heldChunks.map AmAliveChunk.id) False cid t
      ↔ t ≠ s ∧ sg.Holding cid t := by
  simp only [Holders.assign, mem_ids]
  by_cases hts : t = s
  · subst hts
    simp only [true_and, ne_eq, not_true_eq_false, false_and, iff_false]
    split
    · exact id
    · next hold => exact fun h => hold h.2
  · simp only [hts, false_and, if_false, ne_eq, not_false_eq_true, true_and]

/-- **A known server dies**: the call returns. -/
theorem Inv.exists_deadServer (h : sg.Inv n) (hp : sg.servers.lookup addr = some (some s)) :
    ∃ sg', sg.deadServer addr = .ok (none, sg') ∧ sg'.Inv n ∧ sg'.servers = sg.servers
      ∧ sg'.made = sg.made := by
  obtain ⟨chunks, hremove, hlen, h₁⟩ := h.removeHolders s _ fun cid => mem_ids.mp
  refine ⟨_, ?_, h.setServer hp { sg.heap s with dead := true, heldChunks := [] } hlen
    (fun cid hr => absurd hr (VirtualServer.not_reports rfl cid)) (h₁.congr fun cid _ t => ?_),
    rfl, rfl⟩
  · rw [ServerGroup.deadServer, hp]
    dsimp only [deref]
    rw [Call.ok_bind, hremove]
    rfl
  · rw [assign_held]
    split
    · next hts => exact iff_of_false (fun h => h.1 hts) (VirtualServer.not_reports rfl cid)
    · next hts => exact and_iff_right hts

theorem Inv.deadServer (h : sg.Inv n) : (sg.deadServer addr).Returns fun r => r.2.Inv n := by
  intro r hx
  rcases hp : sg.servers.lookup addr with _ | _ | s
  · rw [ServerGroup.deadServer, hp] at hx
    cases hx
    exact h
  · rw [ServerGroup.deadServer, hp] at hx
    cases hx
  · obtain ⟨sg₁, hdead, h₁, -⟩ := h.exists_deadServer hp
    cases hdead.symm.trans hx
    exact h₁

section
variable {servers : AList fun _ : String => Option ℕ} {a : String} {t : ℕ}

theorem lookup_erase_iff : (servers.erase addr).lookup a = some (some t)
    ↔ a ≠ addr ∧ servers.lookup a = some (some t) := by
  by_cases ha : a = addr
  · subst ha
    simp
  · rw [AList.lookup_erase_ne ha, and_iff_right ha]

theorem lookup_insert_iff : (servers.insert addr (some s)).lookup a = some (some t)
    ↔ (a = addr ∧ t = s) ∨ (a ≠ addr ∧ servers.lookup a = some (some t)) := by
  by_cases ha : a = addr
  · subst ha
    simp [eq_comm]
  · simp [AList.lookup_insert_ne ha, ha]

end

theorem Inv.removeServer (h : sg.Inv n) : (sg.removeServer addr).Returns fun r => r.2.Inv n := by
  intro r hx
  rw [ServerGroup.removeServer] at hx
  split at hx
  · cases hx
    exact h
  · next p hp =>
    obtain ⟨s, hs, hx⟩ := Call.bind_eq_ok.mp hx
    rw [deref_eq hs] at hp
    obtain ⟨chunks, hremove, hlen, h₁⟩ := h.removeHolders s _ fun cid => mem_ids.mp
    rw [hremove] at hx
    cases hx
    refine ⟨hlen, h₁.congr fun cid _ t => ?_, h.reports_lt, fun a a' t ha ha' => ?_,
      fun a t ha => h.lt_fresh a t (lookup_erase_iff.mp ha).2⟩
    · rw [assign_held, Holding, Holding, ← and_assoc]
      refine and_congr_left fun _ => ⟨fun ⟨hts, a, ha⟩ => ⟨a, ?_⟩, fun ⟨a, ha⟩ => ?_⟩
      · refine lookup_erase_iff.mpr ⟨?_, ha⟩
        rintro rfl
        exact hts (Option.some.inj (Option.some.inj (ha.symm.trans hp)))
      · obtain ⟨hne, ha⟩ := lookup_erase_iff.mp ha
        exact ⟨fun hts => hne (h.distinct a addr s (hts ▸ ha) hp), a, ha⟩
    · exact h.distinct a a' t (lookup_erase_iff.mp ha).2 (lookup_erase_iff.mp ha').2

theorem Inv.addServerToGroup (h : sg.Inv n) :
    (sg.addServerToGroup addr).Returns fun r => r.2.Inv n := by
  intro r hx
  rw [ServerGroup.addServerToGroup] at hx
  split at hx
  · cases hx
    exact h
  · next hnew =>
    split at hx
    · cases hx
      have hlt : ∀ {a t}, sg.servers.lookup a = some (some t) → t ≠ sg.fresh :=
        fun ha => (h.lt_fresh _ _ ha).ne
      refine ⟨h.length_eq, h.holders.congr fun cid _ t => ?_, fun t cid ht => ?_,
        fun a a' t ha ha' => ?_, fun a t ha => ?_⟩
      · show sg.Holding cid t ↔ (∃ a, (sg.servers.insert addr (some sg.fresh)).lookup a
          = some (some t)) ∧ (Function.update sg.heap sg.fresh ⟨addr, false, []⟩ t).Reports cid
        by_cases hts : t = sg.fresh
        · subst hts
          rw [Function.update_self]
          exact iff_of_false (fun h => h.1.elim fun a ha => hlt ha rfl)
            fun h => VirtualServer.not_reports rfl cid h.2
        · rw [Function.update_of_ne hts]
          refine and_congr_left fun _ => ⟨fun ⟨a, ha⟩ => ⟨a, ?_⟩, fun ⟨a, ha⟩ => ⟨a, ?_⟩⟩
          · refine lookup_insert_iff.mpr (Or.inr ⟨?_, ha⟩)
            rintro rfl
            cases hnew.symm.trans ha
          · exact ((lookup_insert_iff.mp ha).resolve_left fun h => hts h.2).2
      · dsimp only at ht
        by_cases hts : t = sg.fresh
        · subst hts
          rw [Function.update_self] at ht
          exact absurd ht (VirtualServer.not_reports rfl cid)
        · rw [Function.update_of_ne hts] at ht
          exact h.reports_lt t cid ht
      · rcases lookup_insert_iff.mp ha with ⟨rfl, rfl⟩ | ⟨hne, ha⟩
        · rcases lookup_insert_iff.mp ha' with ⟨rfl, -⟩ | ⟨-, ha'⟩
          · rfl
          · exact absurd rfl (hlt ha')
        · rcases lookup_insert_iff.mp ha' with ⟨-, rfl⟩ | ⟨-, ha'⟩
          · exact absurd rfl (hlt ha)
          · exact h.distinct a a' t ha ha'
      · rcases lookup_insert_iff.mp ha with ⟨-, rfl⟩ | ⟨-, ha⟩
        · exact Nat.lt_succ_self _
        · exact (h.lt_fresh a t ha).trans (Nat.lt_succ_self _)
    · cases hx

/-- **One call.** -/
theorem Inv.step (h : sg.Inv n) {ev : Event} (hs : sg.Steps ev sg') : sg'.Inv n := by
  cases ev with
  | addServerToGroup addr =>
    obtain ⟨e, hs⟩ := hs
    exact h.addServerToGroup _ hs
  | setServerChunks addr cids =>
    exact h.setServerChunks (fun c hc => h.length_eq ▸ hs.1 c hc) _ hs.2
  | serverAlive addr => exact h.serverAlive _ hs
  | deadServer addr =>
    obtain ⟨e, hs⟩ := hs
    exact h.deadServer _ hs
  | removeServer addr =>
    obtain ⟨e, hs⟩ := hs
    exact h.removeServer _ hs

/-! ## What the getters return -/

theorem Inv.checksum (h : sg.Inv n) {cid : ℕ} {c : VirtualChunk} (hc : sg.chunks[cid]? = some c)
    (hs : s ∈ c) : ∃ sum, sg.checksum cid s = .ok sum := by
  obtain ⟨-, e, he, hid⟩ := ((h.holders cid c hc).2 s).mp hs
  have hsome : ((sg.heap s).getChunk cid).isSome :=
    List.find?_isSome.mpr ⟨e, he, by simpa using hid⟩
  obtain ⟨e', he'⟩ := Option.isSome_iff_exists.mp hsome
  exact ⟨e'.checksum, by rw [ServerGroup.checksum, he']⟩

theorem Inv.allSum (h : sg.Inv n) {cid : ℕ} {c : VirtualChunk} (hc : sg.chunks[cid]? = some c)
    (sum : UInt64) : ∀ {holders : VirtualChunk}, (∀ s ∈ holders, s ∈ c) →
    ∃ b, sg.allSum cid sum holders = .ok b
  | [], _ => ⟨true, rfl⟩
  | s :: holders, hsub => by
      obtain ⟨sum2, hsum2⟩ := h.checksum hc (hsub s List.mem_cons_self)
      obtain ⟨b, hb⟩ := h.allSum hc sum fun t ht => hsub t (List.mem_cons_of_mem _ ht)
      rw [ServerGroup.allSum, hsum2, Call.ok_bind]
      split
      · exact ⟨false, rfl⟩
      · exact ⟨b, hb⟩

/-- **`IsSynched` finds the report of every holder.** -/
theorem Inv.isSynched (h : sg.Inv n) {cid : ℕ} (hcid : cid < sg.chunks.length) :
    ∃ b, sg.isSynched cid = .ok b := by
  have hc := List.getElem?_eq_getElem hcid
  have hchunk : sg.chunk cid = .ok sg.chunks[cid] := by rw [chunk, hc]
  rw [ServerGroup.isSynched, hchunk, Call.ok_bind]
  split
  · exact ⟨true, rfl⟩
  · exact ⟨true, rfl⟩
  · next s holders _ heq =>
    obtain ⟨sum, hsum⟩ := h.checksum hc (show s ∈ sg.chunks[cid] by rw [heq]; simp)
    obtain ⟨b, hb⟩ := h.allSum hc sum fun t ht =>
      (show t ∈ sg.chunks[cid] by rw [heq]; exact List.mem_cons_of_mem _ ht)
    exact ⟨b, by rw [hsum]; exact hb⟩

/-- The known servers, by their pointers. -/
def known (sg : ServerGroup) : List ℕ := sg.servers.entries.filterMap Sigma.snd

/-- The known servers that have reported a chunk. -/
def reporters (sg : ServerGroup) (cid : ℕ) : List ℕ :=
  sg.known.filter fun s => (sg.heap s).Reports cid

theorem mem_known : s ∈ sg.known ↔ sg.Known s := by
  simp only [known, List.mem_filterMap, Known]
  constructor
  · rintro ⟨⟨a, p⟩, hp, rfl⟩
    exact ⟨a, AList.mem_lookup_iff.mpr hp⟩
  · rintro ⟨a, ha⟩
    exact ⟨⟨a, some s⟩, AList.mem_lookup_iff.mp ha, rfl⟩

theorem Inv.nodup_known (h : sg.Inv n) : sg.known.Nodup := by
  refine List.pairwise_filterMap.mpr ?_
  refine (List.nodupKeys_iff_pairwise.mp sg.servers.nodupKeys).imp_of_mem ?_
  rintro ⟨a, p⟩ ⟨a', p'⟩ he he' hne s hs s' hs' rfl
  obtain rfl : p = some s := hs
  obtain rfl : p' = some s := hs'
  exact hne (h.distinct a a' s (AList.mem_lookup_iff.mpr he) (AList.mem_lookup_iff.mpr he'))

/-- **`NumHolders` counts the servers that have reported the chunk.** -/
theorem Inv.numHolders (h : sg.Inv n) {cid : ℕ} {c : VirtualChunk}
    (hc : sg.chunks[cid]? = some c) : sg.numHolders cid = .ok (sg.reporters cid).length := by
  obtain ⟨hnd, hmem⟩ := h.holders cid c hc
  have hperm : c.Perm (sg.reporters cid) := by
    refine (List.perm_ext_iff_of_nodup hnd (h.nodup_known.filter _)).mpr fun s => ?_
    rw [hmem, List.mem_filter, mem_known, decide_eq_true_iff, Holding]
  rw [ServerGroup.numHolders, chunk, hc, ← hperm.length_eq]
  rfl

/-! ## Runs -/

/-- A group as `CreateServerGroup` or `UnmarhalServerGroup` builds it, of `n` chunks. -/
inductive Built : ServerGroup → ℕ → Prop
  | create (numChunks : ℕ) : Built (create numChunks) numChunks
  | unmarhal (ssg : SerializableServerGroup) : Built (unmarhal ssg) ssg.numChunks

theorem Built.inv : ∀ {sg n}, Built sg n → sg.Inv n
  | _, _, .create n => inv_create n
  | _, _, .unmarhal ssg => inv_unmarhal ssg

/-- **The holder relation**: after any calls on a group as it was built, the holders of a chunk are,
without repetition, the known servers that report it; so `IsSynched` finds every report and
`NumHolders` counts the reporters. -/
theorem holders_eq {sg₀ sg : ServerGroup} {evs : List Event} (h₀ : Built sg₀ n)
    (hrun : Run Steps sg₀ evs sg) : sg.chunks.length = n ∧ ∀ cid < n, ∃ c,
      sg.chunk cid = .ok c ∧ c.Nodup ∧ (∀ s, s ∈ c ↔ sg.Known s ∧ (sg.heap s).Reports cid)
      ∧ (∃ b, sg.isSynched cid = .ok b) ∧ sg.numHolders cid = .ok (sg.reporters cid).length := by
  have h : sg.Inv n := hrun.invariant (fun h hs => h.step hs) h₀.inv
  refine ⟨h.length_eq, fun cid hcid => ?_⟩
  rw [← h.length_eq] at hcid
  have hc := List.getElem?_eq_getElem hcid
  obtain ⟨hnd, hmem⟩ := h.holders cid _ hc
  exact ⟨_, by rw [chunk, hc], hnd, hmem, h.isSynched hcid, h.numHolders hc⟩

/-- Two servers report a chunk, one of them twice in a list, and one dies. -/
def twoServers : List Event :=
  [.addServerToGroup "a", .addServerToGroup "b", .setServerChunks "a" [⟨1, 7⟩, ⟨1, 7⟩],
    .setServerChunks "b" [⟨0, 5⟩, ⟨1, 9⟩], .deadServer "a"]

theorem holders_eq_two : ∃ sg, Run Steps (create 2) twoServers sg ∧ sg.reporters 1 = [1]
    ∧ sg.chunks.length = 2 ∧ ∀ cid < 2, ∃ c,
      sg.chunk cid = .ok c ∧ c.Nodup ∧ (∀ s, s ∈ c ↔ sg.Known s ∧ (sg.heap s).Reports cid)
      ∧ (∃ b, sg.isSynched cid = .ok b) ∧ sg.numHolders cid = .ok (sg.reporters cid).length := by
  have hrun : ∃ sg, Run Steps (create 2) twoServers sg ∧ sg.reporters 1 = [1] :=
    ⟨_, .cons ⟨_, rfl⟩ (.cons ⟨_, rfl⟩ (.cons ⟨by decide, rfl⟩ (.cons ⟨by decide, rfl⟩
      (.cons ⟨_, rfl⟩ (.refl _))))), rfl⟩
  obtain ⟨sg, hrun, hrep⟩ := hrun
  exact ⟨sg, hrun, hrep, holders_eq (.create 2) hrun⟩

end ServerGroup

end Treeless
