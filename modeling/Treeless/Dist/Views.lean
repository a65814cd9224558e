import Treeless.Dist.Rounds
import Mathlib.Data.List.DropRight

/-!
# Dist/Views — what a server knows of another

    b: PresentChunksList ──► Marshal ──► UDP ──► AmAliveUnMarshal ──► SetServerChunks :a
                 │                                                          │
       b's chunks change                                       a's group changes

Every server keeps a group of its own, and learns of the others by their heartbeats.  To a group its
calls are updates of one table, the chunks last reported by each address (`ServerGroup.held`): a
heartbeat sets an entry, a death clears it, and the rest leaves it alone.  A heartbeat lists exactly
the chunks its sender has when it writes it (`Core.Filled.presentChunksList_eq`).  So what `a` knows
of `b` is what `b` had when it wrote the last heartbeat that `a` has heard (`view_exact`), whatever
happens on the other servers, and to `b`, in the meantime.  Every ping has a socket of its own, so
that an answer is never taken for that to another ping.  A server that boots makes a group of its
own, or takes the addresses of another's (`ServerGroup.Started`), and a heartbeater without news:
what it knew of the others is gone.
-/

namespace Treeless

/-! ## A group as a table of reports -/

namespace ServerGroup

/-- The chunks that the server at an address reported last. -/
def held (sg : ServerGroup) (addr : String) : List AmAliveChunk :=
  match sg.servers.lookup addr with
  | some (some s) => (sg.heap s).heldChunks
  | _ => []

variable {sg sg' : ServerGroup} {n : ℕ} {addr : String}

/-- The group after the server at an address has got other reports. -/
theorem Sound.held_setServer (h : sg.Sound n) {s : ℕ} (hs : sg.servers.lookup addr = some (some s))
    (server : VirtualServer) (chunks : List VirtualChunk) :
    ({ sg.setServer s server with chunks } : ServerGroup).held
      = Function.update sg.held addr server.heldChunks := by
  funext a
  rw [held]
  dsimp only [setServer]
  by_cases ha : a = addr
  · subst ha
    rw [hs, Function.update_self]
    dsimp only
    rw [Function.update_self]
  · rw [Function.update_of_ne ha, held]
    split
    · next t ht =>
      have hts : t ≠ s := fun heq => ha (h.distinct a addr s (heq ▸ ht) hs)
      rw [Function.update_of_ne hts]
    · rfl

/-- **A server that joins** reports nothing. -/
theorem Sound.held_addServerToGroup (h : sg.Sound n) {e : Option GroupError}
    (hx : sg.addServerToGroup addr = .ok (e, sg')) :
    sg'.Sound n ∧ sg'.held = sg.held := by
  obtain ⟨e₁, sg₁, hx₁, h₁⟩ := h.exists_addServerToGroup addr
  obtain ⟨rfl, rfl⟩ := Prod.mk.inj (Except.ok.inj (hx₁.symm.trans hx))
  refine ⟨h₁, ?_⟩
  rw [addServerToGroup] at hx
  split at hx
  · cases hx
    rfl
  · next hnone =>
    rw [if_pos h.made] at hx
    cases hx
    funext a
    by_cases ha : a = addr
    · subst ha
      rw [held, held, hnone]
      dsimp only
      rw [AList.lookup_insert]
      dsimp only
      rw [Function.update_self]
    · rw [held, held]
      dsimp only
      rw [AList.lookup_insert_ne ha]
      split
      · next t ht =>
        have hts : t ≠ sg.fresh := (h.lt_fresh a t ht).ne
        rw [Function.update_of_ne hts]
      · rfl

/-- **A report** sets the entry of its server. -/
theorem Sound.held_setServerChunks (h : sg.Sound n) (hon : sg.isServerOnGroup addr = true)
    {cids : List AmAliveChunk} (hlt : ∀ c ∈ cids, c.id < n)
    (hx : sg.setServerChunks addr cids = .ok sg') :
    sg'.Sound n ∧ sg'.held = Function.update sg.held addr cids := by
  obtain ⟨sg₁, hx₁, h₁⟩ := h.exists_setServerChunks hon hlt
  obtain rfl := Except.ok.inj (hx₁.symm.trans hx)
  refine ⟨h₁, ?_⟩
  obtain ⟨s, hs⟩ := h.exists_pointer hon
  rw [setServerChunks, hs] at hx
  dsimp only [deref] at hx
  rw [Call.ok_bind] at hx
  obtain ⟨chunks₁, -, hx⟩ := Call.bind_eq_ok.mp hx
  obtain ⟨chunks₂, -, hx⟩ := Call.bind_eq_ok.mp hx
  cases hx
  exact h.held_setServer hs _ _

/-- **A death** clears the entry of its server. -/
theorem Sound.held_deadServer (h : sg.Sound n) (hon : sg.isServerOnGroup addr = true)
    {e : Option GroupError} (hx : sg.deadServer addr = .ok (e, sg')) :
    sg'.Sound n ∧ sg'.held = Function.update sg.held addr [] := by
  obtain ⟨sg₁, hx₁, h₁⟩ := h.exists_deadServer hon
  obtain ⟨rfl, rfl⟩ := Prod.mk.inj (Except.ok.inj (hx₁.symm.trans hx))
  refine ⟨h₁, ?_⟩
  obtain ⟨s, hs⟩ := h.exists_pointer hon
  rw [deadServer, hs] at hx
  dsimp only [deref] at hx
  rw [Call.ok_bind] at hx
  obtain ⟨chunks, -, hx⟩ := Call.bind_eq_ok.mp hx
  cases hx
  exact h.held_setServer hs _ _

/-- The reports of all the chunks of a group of `n`. -/
theorem lt_of_mem_ids (n : ℕ) :
    ∀ c ∈ (List.range n).map fun cid => (⟨cid, 0⟩ : AmAliveChunk), c.id < n := by
  intro c hc
  obtain ⟨cid, hcid, rfl⟩ := List.mem_map.mp hc
  exact List.mem_range.mp hcid

/-- The group that `Create` makes: the server itself, with all the chunks. -/
def created (n : ℕ) (own : String) : Call ServerGroup := do
  let (_, sg) ← (create n).addServerToGroup own
  sg.setServerChunks own ((List.range n).map fun cid => ⟨cid, 0⟩)

/-- The group that `Assoc` makes: the servers that another sends, and the server itself. -/
def associated (ssg : SerializableServerGroup) (own : String) : Call ServerGroup :=
  Prod.snd <$> (unmarhal ssg).addServerToGroup own

/-- The group of `n` chunks that a server boots with, by `Create` or with what `Assoc` gets, which
panics on a pointer that is `nil`, and if there is no server to be added by. -/
def Started (n : ℕ) (own : String) : Option SerializableServerGroup → ServerGroup → Prop
  | none, sg => created n own = .ok sg
  | some ssg, sg => ssg.numChunks = n ∧ ssg.made = true
    ∧ (∀ a, ssg.servers.lookup a ≠ some none) ∧ associated ssg own = .ok sg

/-- `Create` makes its group without fault. -/
theorem exists_created (n : ℕ) (own : String) : ∃ sg, created n own = .ok sg := by
  obtain ⟨e, sg₁, hadd, hsound⟩ := (Sound.create n).exists_addServerToGroup own
  have hon := (((create n).stops_addServerToGroup own).returns _ hadd own).mpr (Or.inl rfl)
  obtain ⟨sg, hset, -⟩ := hsound.exists_setServerChunks hon (lt_of_mem_ids n)
  exact ⟨sg, by rw [created, hadd]; exact hset⟩

/-- **A group to boot with** knows of no chunks of others. -/
theorem Started.spec {own : String} {assoc : Option SerializableServerGroup}
    (h : Started n own assoc sg) : sg.Sound n ∧ ∀ other ≠ own, sg.held other = [] := by
  cases assoc with
  | none =>
    obtain ⟨⟨e, sg₁⟩, hadd, hset⟩ := Call.bind_eq_ok.mp h
    obtain ⟨hsound, hheld⟩ := (Sound.create n).held_addServerToGroup hadd
    have hon := (((create n).stops_addServerToGroup own).returns _ hadd own).mpr (Or.inl rfl)
    obtain ⟨hsound', hheld'⟩ := hsound.held_setServerChunks hon (lt_of_mem_ids n) hset
    refine ⟨hsound', fun other hne => ?_⟩
    rw [hheld', Function.update_of_ne hne, hheld]
    rfl
  | some ssg =>
    obtain ⟨rfl, hmade, hpointed, hx⟩ := h
    obtain ⟨⟨e, sg₁⟩, hadd, rfl⟩ := Call.map_eq_ok.mp hx
    have hsound : (unmarhal ssg).Sound ssg.numChunks := ⟨inv_unmarhal ssg, hmade, hpointed⟩
    obtain ⟨hsound', hheld⟩ := hsound.held_addServerToGroup hadd
    refine ⟨hsound', fun other _ => ?_⟩
    rw [hheld, held]
    split
    · exact ssg.blank _
    · rfl

/-- **The holders of a chunk** are the servers that have it in their entry. -/
theorem Sound.mem_chunk (h : sg.Sound n) {s : ℕ} (hs : sg.servers.lookup addr = some (some s))
    {cid : ℕ} (hcid : cid < n) :
    ∃ c, sg.chunk cid = .ok c ∧ (s ∈ c ↔ cid ∈ (sg.held addr).map AmAliveChunk.id) := by
  have hget := List.getElem?_eq_getElem (h.length_eq.symm ▸ hcid : cid < sg.chunks.length)
  refine ⟨_, by rw [chunk, hget], ?_⟩
  rw [(h.holders cid _ hget).2 s, held, hs, mem_ids]
  exact and_iff_right ⟨addr, hs⟩

end ServerGroup

/-! ## What a heartbeat lists -/

namespace Core

variable {c : Core}

/-- The report on a chunk, if it is present. -/
def entry (now : ℕ → Time) (cid : ℕ) (chunk : MetaChunk) : Option KnownChunk :=
  if chunk.present then
    chunk.pm.map fun pm => ⟨cid, (pm.checksum.checksum (now cid)).1⟩
  else none

/-- The reports on the chunks below `n`. -/
def entries (now : ℕ → Time) (c : Core) (n : ℕ) : List KnownChunk :=
  (List.range n).filterMap fun cid => c.chunks[cid]?.bind (entry now cid)

/-- **`PresentChunksList` lists the chunks that are present**, each with its own checksum. -/
theorem Filled.presentChunksList_eq (h : c.Filled) {now : ℕ → Time} {list : List KnownChunk}
    {c' : Core} (hx : c.presentChunksList now = .ok (list, c')) :
    list = c.entries now c.chunks.length := by
  have hturns : ∀ n ≤ c.chunks.length, ∃ c₁, (List.range n).foldlM (listChunk now) ([], c)
      = .ok (c.entries now n, c₁) ∧ ∀ cid, n ≤ cid → c₁.chunks[cid]? = c.chunks[cid]? := by
    intro n
    induction n with
    | zero => exact fun _ => ⟨c, rfl, fun _ _ => rfl⟩
    | succ n ih =>
      intro hn
      obtain ⟨c₁, hfold, hrest⟩ := ih (by omega)
      obtain ⟨chunk, hget⟩ : ∃ chunk, c.chunks[n]? = some chunk :=
        ⟨_, List.getElem?_eq_getElem (by omega)⟩
      have hchunk : c₁.chunk n = .ok chunk := by rw [Core.chunk, hrest n le_rfl, hget]
      have hentries : c.entries now (n + 1) = c.entries now n ++ (entry now n chunk).toList := by
        rw [entries, List.range_succ, List.filterMap_append, entries, List.filterMap_cons, hget,
          Option.bind_some]
        cases entry now n chunk <;> rfl
      rw [List.range_succ, List.foldlM_append, hfold, Call.ok_bind, List.foldlM_cons, listChunk,
        hchunk, Call.ok_bind, hentries, entry]
      split
      · next hp =>
        obtain ⟨pm, hpm⟩ := Option.ne_none_iff_exists'.mp (h chunk (List.mem_of_getElem? hget) hp)
        rw [hpm]
        refine ⟨_, rfl, fun cid hle => ?_⟩
        rw [Core.setChunk, List.getElem?_set_ne (by omega)]
        exact hrest cid (by omega)
      · exact ⟨c₁, by rw [Option.toList_none, List.append_nil]; rfl,
          fun cid hle => hrest cid (by omega)⟩
  obtain ⟨c₁, hfold, -⟩ := hturns c.chunks.length le_rfl
  rw [Core.presentChunksList, if_neg (not_lt.mpr (nonneg_of_presentChunksList hx)), hfold] at hx
  exact (Prod.mk.inj (Except.ok.inj hx)).1.symm

theorem entries_mem {now : ℕ → Time} {n : ℕ} {k : KnownChunk} (hk : k ∈ c.entries now n) :
    0 ≤ k.id ∧ k.id < n := by
  obtain ⟨cid, hcid, hentry⟩ := List.mem_filterMap.mp hk
  obtain ⟨chunk, -, hentry⟩ := Option.bind_eq_some_iff.mp hentry
  rw [entry] at hentry
  split at hentry
  · obtain ⟨pm, -, rfl⟩ := Option.map_eq_some_iff.mp hentry
    exact ⟨Int.natCast_nonneg cid, Int.ofNat_lt.mpr (List.mem_range.mp hcid)⟩
  · cases hentry

end Core

namespace AmAlive

open Packet

/-- **The chunks of a heartbeat come back**, whatever news it brings. -/
theorem knownChunks_unmarshal {aa aa' : AmAlive} {msg : Bytes} (hmsg : aa.marshal = .ok msg)
    (hread : amAliveUnMarshal (.whole msg) = .ok (.ok aa')) :
    aa'.knownChunks = aa.knownChunks.map KnownChunk.read := by
  have hcount := marshal_ok_iff.mp ⟨msg, hmsg⟩
  have hmod : aa.knownChunks.length % 256 ^ 2 = aa.knownChunks.length :=
    Nat.mod_eq_of_lt (by omega)
  obtain ⟨zeros, hzeros⟩ := Nat.exists_eq_add_of_le (length_frame_le hcount).2.2
  rw [marshal_eq hcount, hzeros, Mem.read_add, Mem.read_write_same, frame, front] at hmsg
  cases hmsg
  simp only [List.append_assoc] at hread
  rw [amAliveUnMarshal, uint_zero_whole, Call.ok_bind, hmod, skip_whole _ _ (length_leBytes ..),
    Call.ok_bind, unmarshalChunks_eq (by simp only [List.length_append, length_leBytes]; omega),
    Call.ok_bind] at hread
  obtain ⟨r, -, hread⟩ := Call.bind_eq_ok.mp hread
  cases r with
  | error e => cases hread
  | ok r =>
    obtain ⟨r', -, hread⟩ := Call.bind_eq_ok.mp hread
    cases r' with
    | error e => cases hread
    | ok r' =>
      cases hread
      rfl

end AmAlive

/-! ## What a heartbeater does to its group -/

/-- A chunk of a heartbeat, as the group keeps it. -/
def KnownChunk.report (c : KnownChunk) : AmAliveChunk := ⟨c.id.toNat, c.checksum⟩

/-- The heartbeat lists chunks of a group of `n`. -/
def Lists (n : ℕ) (chunks : List KnownChunk) : Prop := ∀ c ∈ chunks, 0 ≤ c.id ∧ c.id < n

namespace ServerGroup

variable {sg sg' : ServerGroup} {n : ℕ} {addr : String}

/-- **The report of a heartbeat.** -/
theorem Sound.held_setKnownChunks (h : sg.Sound n) (hon : sg.isServerOnGroup addr = true)
    {chunks : List KnownChunk} (hrange : Lists n chunks)
    (hx : sg.setKnownChunks addr chunks = .ok sg') :
    sg'.Sound n ∧ sg'.held = Function.update sg.held addr (chunks.map KnownChunk.report) := by
  have hmap : (chunks.map fun c =>
      (⟨if 0 ≤ c.id then c.id.toNat else sg.chunks.length, c.checksum⟩ : AmAliveChunk))
        = chunks.map KnownChunk.report :=
    List.map_congr_left fun c hc => by rw [if_pos (hrange c hc).1, KnownChunk.report]
  rw [setKnownChunks, hmap] at hx
  refine h.held_setServerChunks hon (fun c hc => ?_) hx
  obtain ⟨c₀, hc₀, rfl⟩ := List.mem_map.mp hc
  obtain ⟨h0, hlt⟩ := hrange c₀ hc₀
  rw [KnownChunk.report]
  dsimp only
  omega

/-- A report of a server, whether it is on the group or not, leaves the other servers alone. -/
theorem Sound.setKnownChunks (h : sg.Sound n) {chunks : List KnownChunk} (hrange : Lists n chunks)
    (hx : sg.setKnownChunks addr chunks = .ok sg') :
    sg'.Sound n ∧ ∀ other ≠ addr, sg'.held other = sg.held other := by
  by_cases hon : sg.isServerOnGroup addr = true
  · obtain ⟨hsound, hheld⟩ := h.held_setKnownChunks hon hrange hx
    exact ⟨hsound, fun other hne => by rw [hheld, Function.update_of_ne hne]⟩
  · rw [isServerOnGroup, Bool.not_eq_true, Option.isSome_eq_false_iff, Option.isNone_iff_eq_none]
      at hon
    rw [ServerGroup.setKnownChunks, setServerChunks, hon] at hx
    cases hx
    exact ⟨h, fun _ _ => rfl⟩

end ServerGroup

namespace Net

variable {net : Net} {h h' : Gossiper} {n : ℕ} {addr : Bytes}

/-- A ping that is not answered: the failing branch of `request`, once. -/
def miss (net : Net) (addr : Bytes) (h : Gossiper) : Call Gossiper :=
  if h.On addr then
    let h := h.setTimeouts addr (h.timeouts addr + 1)
    if h.timeouts addr ≥ 3 then net.lose addr h else .ok h
  else .ok (h.setTimeouts addr 0)

/-- **A request that is not answered** goes on until the server is dead. -/
theorem request_eq_miss (fuel : ℕ) (h : Gossiper) (hlocal : addr ≠ net.localhostIPPort)
    (hfail : net.reply addr = none) : net.request (fuel + 1) addr h = (do
      let h ← net.miss addr h
      if h.timeouts addr = 0 then return (false, h) else net.request fuel addr h) := by
  rw [request_failed fuel h hlocal hfail, miss]
  split
  · simp only [ge_iff_le, Gossiper.timeouts_setTimeouts]
    split
    · rw [lose]
      dsimp only [Gossiper.setTimeouts]
      cases hdead : h.sg.deadServer (address addr) with
      | error f => rfl
      | ok r =>
        rw [Call.ok_bind, Call.pure_eq, Call.ok_bind]
        dsimp only
        rw [if_pos (Function.update_self ..)]
        rfl
    · next hlt =>
      rw [Call.ok_bind, if_neg (by simp)]
  · rw [Call.ok_bind, if_pos (by simp)]
    rfl

/-- **An answered ping** sets the entry of the server to the chunks it lists, and clears its
timeouts. -/
theorem process_spec (hs : h.sg.Sound n) {aa : AmAlive} (hrange : Lists n aa.knownChunks)
    (hx : net.process addr aa h = .ok h') :
    h'.sg.Sound n ∧ h'.timeouts = Function.update h.timeouts addr 0
      ∧ h'.sg.held
        = Function.update h.sg.held (address addr) (aa.knownChunks.map KnownChunk.report) := by
  obtain ⟨h₁, hjoin, hx⟩ := Call.bind_eq_ok.mp hx
  obtain ⟨sg, hset, hx⟩ := Call.bind_eq_ok.mp hx
  cases hx
  have hon₁ := ((net.stops_join addr _).returns h₁ hjoin).1
  have hjoined : h₁.sg.Sound n ∧ h₁.sg.held = h.sg.held
      ∧ h₁.timeouts = Function.update h.timeouts addr 0 := by
    rw [join] at hjoin
    split at hjoin
    · cases hjoin
      exact ⟨hs, rfl, rfl⟩
    · obtain ⟨⟨e, sg₁⟩, hadd, hjoin⟩ := Call.bind_eq_ok.mp hjoin
      cases hjoin
      obtain ⟨hs₁, hheld⟩ := hs.held_addServerToGroup hadd
      exact ⟨hs₁, hheld, rfl⟩
  obtain ⟨hs₁, hheld₁, htime₁⟩ := hjoined
  obtain ⟨hs', hheld'⟩ := hs₁.held_setKnownChunks hon₁ hrange hset
  exact ⟨hs', htime₁, by rw [hheld', hheld₁]⟩

/-- **A ping that is not answered** is at most one more timeout of the server; the third clears its
entry. -/
theorem miss_spec (hs : h.sg.Sound n) (hx : net.miss addr h = .ok h') :
    h'.sg.Sound n ∧ h'.timeouts addr ≤ h.timeouts addr + 1
      ∧ (∀ a ≠ addr, h'.timeouts a = h.timeouts a)
      ∧ (h'.sg.held = h.sg.held
        ∨ 2 ≤ h.timeouts addr ∧ h'.sg.held = Function.update h.sg.held (address addr) []) := by
  rw [miss] at hx
  split at hx
  · next hon =>
    simp only [ge_iff_le, Gossiper.timeouts_setTimeouts] at hx
    split at hx
    · next hthird =>
      obtain ⟨⟨e, sg⟩, hdead, hx⟩ := Call.bind_eq_ok.mp hx
      cases hx
      obtain ⟨hs', hheld⟩ := hs.held_deadServer hon hdead
      refine ⟨hs', ?_, fun a ha => ?_, Or.inr ⟨by omega, hheld⟩⟩
      · exact le_of_eq_of_le (Function.update_self ..) (Nat.zero_le _)
      · exact (Function.update_of_ne ha ..).trans (Function.update_of_ne ha ..)
    · cases hx
      exact ⟨hs, (Gossiper.timeouts_setTimeouts ..).le, fun a ha => Function.update_of_ne ha ..,
        Or.inl rfl⟩
  · cases hx
    exact ⟨hs, le_of_eq_of_le (Gossiper.timeouts_setTimeouts ..) (Nat.zero_le _),
      fun a ha => Function.update_of_ne ha .., Or.inl rfl⟩

end Net

/-! ## Servers that watch each other -/

/-- A server: its core with the directory, and its heartbeater with the group. -/
structure Peer where
  world : World
  gossip : Gossiper

/-- The servers, and for each of them the heartbeat that is on its way to it, with its sender. -/
structure Peers (ι : Type) where
  peer : ι → Peer
  packet : ι → Option (ι × Bytes)

namespace Peers

variable {ι : Type}

inductive Event (ι : Type)
  /-- Something happens to the core of a server, other than that its process ends. -/
  | core (b : ι) (service : Service)
  /-- `a` goes down and boots, by `Create` or by `Assoc`. -/
  | boot (a : ι) (assoc : Option SerializableServerGroup)
  /-- `b` answers a ping of `a`. -/
  | answer (a b : ι) (t : Time) (now : ℕ → Time) (t' : Time)
  /-- `a` hears the answer of `b`. -/
  | hear (a b : ι)
  /-- `a` hears no answer of `b` in time. -/
  | miss (a b : ι)
  /-- `a` is told of a server that joins (`OpAddServerToGroup`). -/
  | add (a : ι) (addr : Bytes)
  /-- `a` reports its own chunks to its group, as its repair system does at every check. -/
  | report (a : ι) (now : ℕ → Time)

variable [DecidableEq ι] (addr : ι → Bytes) (clock : ι → ℕ → Time)

/-- What the heartbeater of `a` goes by; the answers are those that come as packets. -/
def net (a : ι) : Net := ⟨fun _ => none, addr a, clock a⟩

/-- The server `a` has become `p`. -/
def set (s : Peers ι) (a : ι) (p : Peer) : Peers ι := { s with peer := Function.update s.peer a p }

/-- The event takes the servers from `s` to `s'`. -/
def Steps (s : Peers ι) : Event ι → Peers ι → Prop
  | .core b service, s' => service ≠ .event .restart
    ∧ ∃ world, (s.peer b).world.Serves service world ∧ s' = s.set b { s.peer b with world }
  | .boot a assoc, s' => ∃ sg,
    ServerGroup.Started (s.peer a).world.core.chunks.length (address (addr a)) assoc sg
    ∧ s' = { s.set a ⟨(s.peer a).world.restart, ⟨sg, fun _ => 0, ⟨[], []⟩, 0⟩⟩ with
      packet := Function.update s.packet a none }
  | .answer a b t now t', s' => a ≠ b ∧ ∃ aa news core msg,
    (s.peer b).gossip.news.listenReply (s.peer b).world.core t now t' = .ok (aa, news, core)
    ∧ aa.marshal = .ok msg
    ∧ s' = { s.set b ⟨{ (s.peer b).world with core }, { (s.peer b).gossip with news }⟩ with
      packet := Function.update s.packet a (some (b, msg)) }
  | .hear a b, s' => ∃ msg aa gossip, s.packet a = some (b, msg)
    ∧ amAliveUnMarshal (.whole msg) = .ok (.ok aa)
    ∧ (net addr clock a).process (addr b) aa (s.peer a).gossip = .ok gossip
    ∧ s' = { s.set a { s.peer a with gossip } with packet := Function.update s.packet a none }
  | .miss a b, s' => a ≠ b ∧ ∃ gossip,
    (net addr clock a).miss (addr b) (s.peer a).gossip = .ok gossip
    ∧ s' = { s.set a { s.peer a with gossip } with packet := Function.update s.packet a none }
  | .add a joined, s' => ∃ e sg t t', (s.peer a).gossip.sg.addServerToGroup (address joined)
      = .ok (e, sg)
    ∧ s' = s.set a { s.peer a with
      gossip := { (s.peer a).gossip with
        sg
        news := (s.peer a).gossip.news.gossipAdded t t' joined } }
  | .report a now, s' => ∃ list core sg,
    (s.peer a).world.core.presentChunksList now = .ok (list, core)
    ∧ (s.peer a).gossip.sg.setKnownChunks (address (addr a)) list = .ok sg
    ∧ s' = s.set a ⟨{ (s.peer a).world with core }, { (s.peer a).gossip with sg }⟩

/-- What `a` knows of the chunks of `b`. -/
def view (s : Peers ι) (a b : ι) : List AmAliveChunk := (s.peer a).gossip.sg.held (address (addr b))

/-- The timeouts that `a` counts for `b`. -/
def lapses (s : Peers ι) (a b : ι) : ℕ := (s.peer a).gossip.timeouts (addr b)

/-- `a` boots. -/
def Event.boots (a : ι) : Event ι → Bool
  | .boot a' _ => decide (a' = a)
  | _ => false

/-- The events since `a` has booted. -/
def since (a : ι) (es : List (Event ι)) : List (Event ι) := es.rtakeWhile fun e => !e.boots a

/-- How often `a` has missed an answer of `b` since it heard one. -/
def misses (a b : ι) : List (Event ι) → ℕ :=
  List.foldl (fun n e => match e with
    | .hear a' b' => if a' = a ∧ b' = b then 0 else n
    | .miss a' b' => if a' = a ∧ b' = b then n + 1 else n
    | _ => n) 0

/-- The event is no part of a request of `a`, and `a` goes on running. -/
def Event.Spares (a : ι) : Event ι → Prop
  | .boot a' _ => a' ≠ a
  | .answer a' _ _ _ _ => a' ≠ a
  | .hear a' _ => a' ≠ a
  | .miss a' _ => a' ≠ a
  | _ => True

/-- Groups of `n` chunks that know of none, and cores of `n` chunks. -/
structure Starts (n : ℕ) (s : Peers ι) : Prop where
  sound : ∀ a, (s.peer a).gossip.sg.Sound n
  view_eq : ∀ a b, a ≠ b → s.view addr a b = []
  timeouts_eq : ∀ a addr, (s.peer a).gossip.timeouts addr = 0
  filled : ∀ a, (s.peer a).world.core.Filled ∧ (s.peer a).world.core.chunks.length = n
  packet_eq : ∀ a, s.packet a = none

/-- The heartbeat that `a` gets is the one that `b` writes with the chunks it then has: its last
request was answered by `b`, with `chunks`. -/
def Answered (init : Peers ι) (n : ℕ) (a b : ι) (es : List (Event ι)) (chunks : List KnownChunk) :
    Prop :=
  ∃ es₀ t now t' es₁ s₀, es = es₀ ++ .answer a b t now t' :: es₁ ∧ (∀ e ∈ es₁, e.Spares a)
    ∧ Run (Steps addr clock) init es₀ s₀ ∧ chunks = (s₀.peer b).world.core.entries now n

/-! ## What a step does -/

variable {addr clock} {init s s' : Peers ι} {e : Event ι} {a b : ι} {n : ℕ} {es : List (Event ι)}

theorem set_peer (s : Peers ι) (c : ι) (p : Peer) (a : ι) :
    (s.set c p).peer a = if a = c then p else s.peer a := Function.update_apply ..

theorem world_set_gossip (s : Peers ι) (c : ι) (gossip : Gossiper) (b : ι) :
    ((s.set c { s.peer c with gossip }).peer b).world = (s.peer b).world := by
  rw [set_peer]
  split
  · next hb => rw [hb]
  · rfl

/-- **To a core**: nothing, or something that happens to cores. -/
theorem world_cases (hs : Steps addr clock s e s') (b : ι) :
    (s'.peer b).world = (s.peer b).world
      ∨ ∃ service, (s.peer b).world.Serves service (s'.peer b).world := by
  cases e with
  | core c service =>
    obtain ⟨-, world, hserves, rfl⟩ := hs
    rw [set_peer]
    split
    · next hb => exact Or.inr ⟨service, hb ▸ hserves⟩
    · exact Or.inl rfl
  | boot a assoc =>
    obtain ⟨sg, -, rfl⟩ := hs
    dsimp only
    rw [set_peer]
    split
    · next hb =>
      subst hb
      exact Or.inr ⟨.event .restart, rfl⟩
    · exact Or.inl rfl
  | answer a c t now t' =>
    obtain ⟨-, aa, news, core, msg, hreply, -, rfl⟩ := hs
    obtain ⟨⟨list, core'⟩, hlist, hreply⟩ := Call.bind_eq_ok.mp hreply
    cases hreply
    dsimp only
    rw [set_peer]
    split
    · next hb =>
      subst hb
      exact Or.inr ⟨.report now, list, core, hlist, rfl⟩
    · exact Or.inl rfl
  | hear a c =>
    obtain ⟨msg, aa, gossip, -, -, -, rfl⟩ := hs
    exact Or.inl (world_set_gossip s a gossip b)
  | miss a c =>
    obtain ⟨-, gossip, -, rfl⟩ := hs
    exact Or.inl (world_set_gossip s a gossip b)
  | add a joined =>
    obtain ⟨e, sg, t, t', -, rfl⟩ := hs
    exact Or.inl (world_set_gossip s a _ b)
  | report a now =>
    obtain ⟨list, core, sg, hlist, -, rfl⟩ := hs
    rw [set_peer]
    split
    · next hb =>
      subst hb
      exact Or.inr ⟨.report now, list, core, hlist, rfl⟩
    · exact Or.inl rfl

/-- What a step may do to the group of `a` and the timeouts it counts. -/
inductive Learns (addr : ι → Bytes) (clock : ι → ℕ → Time) (s : Peers ι) (a : ι) :
    Event ι → Gossiper → Prop
  | nothing {e : Event ι} {h : Gossiper} (boot : e.boots a = false) (hear : ∀ b, e ≠ .hear a b)
      (miss : ∀ b, e ≠ .miss a b) (sg : h.sg = (s.peer a).gossip.sg)
      (timeouts : h.timeouts = (s.peer a).gossip.timeouts) : Learns addr clock s a e h
  | booted {assoc : Option SerializableServerGroup} {h : Gossiper}
      (started : ServerGroup.Started (s.peer a).world.core.chunks.length (address (addr a)) assoc
        h.sg) (timeouts : h.timeouts = fun _ => 0) : Learns addr clock s a (.boot a assoc) h
  | heard {b : ι} {msg : Bytes} {aa : AmAlive} {h : Gossiper} (packet : s.packet a = some (b, msg))
      (read : amAliveUnMarshal (.whole msg) = .ok (.ok aa))
      (process : (net addr clock a).process (addr b) aa (s.peer a).gossip = .ok h) :
      Learns addr clock s a (.hear a b) h
  | missed {b : ι} {h : Gossiper} (ne : a ≠ b)
      (miss : (net addr clock a).miss (addr b) (s.peer a).gossip = .ok h) :
      Learns addr clock s a (.miss a b) h
  | added {joined : Bytes} {e : Option GroupError} {h : Gossiper}
      (add : (s.peer a).gossip.sg.addServerToGroup (address joined) = .ok (e, h.sg))
      (timeouts : h.timeouts = (s.peer a).gossip.timeouts) :
      Learns addr clock s a (.add a joined) h
  | reported {now : ℕ → Time} {list : List KnownChunk} {core : Core} {h : Gossiper}
      (list_eq : (s.peer a).world.core.presentChunksList now = .ok (list, core))
      (set : (s.peer a).gossip.sg.setKnownChunks (address (addr a)) list = .ok h.sg)
      (timeouts : h.timeouts = (s.peer a).gossip.timeouts) :
      Learns addr clock s a (.report a now) h

/-- **To a group**: what a boot, a request, a join or a report of its server does. -/
theorem gossip_cases (hs : Steps addr clock s e s') (a : ι) :
    Learns addr clock s a e (s'.peer a).gossip := by
  cases e with
  | core c service =>
    obtain ⟨-, world, -, rfl⟩ := hs
    rw [set_peer]
    split
    · next ha => exact .nothing rfl (by simp) (by simp) (ha ▸ rfl) (ha ▸ rfl)
    · exact .nothing rfl (by simp) (by simp) rfl rfl
  | boot c assoc =>
    obtain ⟨sg, hstarted, rfl⟩ := hs
    dsimp only
    rw [set_peer]
    split
    · next ha =>
      subst ha
      exact .booted hstarted rfl
    · next ha => exact .nothing (decide_eq_false (Ne.symm ha)) (by simp) (by simp) rfl rfl
  | answer c b t now t' =>
    obtain ⟨-, aa, news, core, msg, -, -, rfl⟩ := hs
    dsimp only
    rw [set_peer]
    split
    · next ha => exact .nothing rfl (by simp) (by simp) (ha ▸ rfl) (ha ▸ rfl)
    · exact .nothing rfl (by simp) (by simp) rfl rfl
  | hear c b =>
    obtain ⟨msg, aa, gossip, hpacket, hread, hprocess, rfl⟩ := hs
    dsimp only
    rw [set_peer]
    split
    · next ha =>
      subst ha
      exact .heard hpacket hread hprocess
    · next ha => exact .nothing rfl (by grind) (by simp) rfl rfl
  | miss c b =>
    obtain ⟨hne, gossip, hmiss, rfl⟩ := hs
    dsimp only
    rw [set_peer]
    split
    · next ha =>
      subst ha
      exact .missed hne hmiss
    · next ha => exact .nothing rfl (by simp) (by grind) rfl rfl
  | add c joined =>
    obtain ⟨e, sg, t, t', hadd, rfl⟩ := hs
    rw [set_peer]
    split
    · next ha =>
      subst ha
      exact .added hadd rfl
    · next ha => exact .nothing rfl (by simp) (by simp) rfl rfl
  | report c now =>
    obtain ⟨list, core, sg, hlist, hset, rfl⟩ := hs
    rw [set_peer]
    split
    · next ha =>
      subst ha
      exact .reported hlist hset rfl
    · next ha => exact .nothing rfl (by simp) (by simp) rfl rfl

/-- **To the heartbeat on its way to `a`**: only a request or a boot of `a` matters to it. -/
theorem packet_cases (hs : Steps addr clock s e s') (a : ι) :
    (s'.packet a = s.packet a ∧ e.Spares a) ∨ s'.packet a = none
      ∨ ∃ b t now t' aa news core msg, e = .answer a b t now t'
        ∧ (s.peer b).gossip.news.listenReply (s.peer b).world.core t now t' = .ok (aa, news, core)
        ∧ aa.marshal = .ok msg ∧ s'.packet a = some (b, msg) := by
  cases e with
  | core c service =>
    obtain ⟨-, world, -, rfl⟩ := hs
    exact Or.inl ⟨rfl, trivial⟩
  | boot c assoc =>
    obtain ⟨sg, -, rfl⟩ := hs
    dsimp only
    rw [Function.update_apply]
    split
    · exact Or.inr (Or.inl rfl)
    · next ha => exact Or.inl ⟨rfl, Ne.symm ha⟩
  | answer c b t now t' =>
    obtain ⟨-, aa, news, core, msg, hreply, hmsg, rfl⟩ := hs
    dsimp only
    rw [Function.update_apply]
    split
    · next ha =>
      subst ha
      exact Or.inr (Or.inr ⟨b, t, now, t', aa, news, core, msg, rfl, hreply, hmsg, rfl⟩)
    · next ha => exact Or.inl ⟨rfl, Ne.symm ha⟩
  | hear c b =>
    obtain ⟨msg, aa, gossip, -, -, -, rfl⟩ := hs
    dsimp only
    rw [Function.update_apply]
    split
    · exact Or.inr (Or.inl rfl)
    · next ha => exact Or.inl ⟨rfl, Ne.symm ha⟩
  | miss c b =>
    obtain ⟨-, gossip, -, rfl⟩ := hs
    dsimp only
    rw [Function.update_apply]
    split
    · exact Or.inr (Or.inl rfl)
    · next ha => exact Or.inl ⟨rfl, Ne.symm ha⟩
  | add c joined =>
    obtain ⟨e, sg, t, t', -, rfl⟩ := hs
    exact Or.inl ⟨rfl, trivial⟩
  | report c now =>
    obtain ⟨list, core, sg, -, -, rfl⟩ := hs
    exact Or.inl ⟨rfl, trivial⟩

/-! ## What holds of all servers -/

/-- The groups are sound, the cores have what their chunks need, and the heartbeats list chunks of
the group. -/
structure Inv (n : ℕ) (s : Peers ι) : Prop where
  sound : ∀ a, (s.peer a).gossip.sg.Sound n
  filled : ∀ a, (s.peer a).world.core.Filled ∧ (s.peer a).world.core.chunks.length = n
  lists : ∀ a b msg aa, s.packet a = some (b, msg) →
    amAliveUnMarshal (.whole msg) = .ok (.ok aa) → Lists n aa.knownChunks

omit [DecidableEq ι] in
theorem Starts.inv (h : Starts addr n init) : Inv n init where
  sound := h.sound
  filled := h.filled
  lists a b msg aa hpacket := by
    rw [h.packet_eq a] at hpacket
    cases hpacket

omit [DecidableEq ι] in
/-- **A heartbeat lists what its server has.** -/
theorem Inv.knownChunks_eq (h : Inv n s) (hn : n ≤ 2 ^ 32) {b : ι} {t t' : Time} {now : ℕ → Time}
    {aa aa' : AmAlive} {news : Heartbeater} {core : Core} {msg : Bytes}
    (hreply : (s.peer b).gossip.news.listenReply (s.peer b).world.core t now t'
      = .ok (aa, news, core)) (hmsg : aa.marshal = .ok msg)
    (hread : amAliveUnMarshal (.whole msg) = .ok (.ok aa')) :
    aa'.knownChunks = (s.peer b).world.core.entries now n := by
  obtain ⟨⟨list, core'⟩, hlist, hreply⟩ := Call.bind_eq_ok.mp hreply
  cases hreply
  obtain ⟨hfilled, hlen⟩ := h.filled b
  have heq := hfilled.presentChunksList_eq hlist
  rw [hlen] at heq
  rw [AmAlive.knownChunks_unmarshal hmsg hread, heq]
  refine (List.map_congr_left fun k hk => ?_).trans (List.map_id _)
  obtain ⟨h0, hlt⟩ := Core.entries_mem hk
  exact KnownChunk.ext (Int.emod_eq_of_lt h0 (by omega)) rfl

omit [DecidableEq ι] in
/-- A report lists chunks of the group. -/
theorem Inv.lists_report (h : Inv n s) {a : ι} {now : ℕ → Time} {list : List KnownChunk}
    {core : Core} (hlist : (s.peer a).world.core.presentChunksList now = .ok (list, core)) :
    Lists n list := by
  obtain ⟨hfilled, hlen⟩ := h.filled a
  rw [hfilled.presentChunksList_eq hlist, hlen]
  exact fun k hk => Core.entries_mem hk

theorem Inv.step (hn : n ≤ 2 ^ 32) (h : Inv n s) (hs : Steps addr clock s e s') : Inv n s' where
  sound a := by
    cases gossip_cases hs a with
    | nothing _ _ _ hsg _ => exact hsg ▸ h.sound a
    | booted hstarted _ => exact (h.filled a).2 ▸ hstarted.spec.1
    | heard hpacket hread hprocess =>
      exact (Net.process_spec (h.sound a) (h.lists a _ _ _ hpacket hread) hprocess).1
    | missed _ hmiss => exact (Net.miss_spec (h.sound a) hmiss).1
    | added hadd _ => exact ((h.sound a).held_addServerToGroup hadd).1
    | reported hlist hset _ => exact ((h.sound a).setKnownChunks (h.lists_report hlist) hset).1
  filled b := by
    rcases world_cases hs b with heq | ⟨service, hserves⟩
    · exact heq ▸ h.filled b
    · exact hserves.filled (h.filled b)
  lists a b msg aa hpacket hread := by
    rcases packet_cases hs a with ⟨heq, -⟩ | hnone | ⟨b', t, now, t', aa', news, core, msg', -,
      hreply, hmsg, hpacket'⟩
    · exact h.lists a b msg aa (heq ▸ hpacket) hread
    · rw [hnone] at hpacket
      cases hpacket
    · obtain ⟨rfl, rfl⟩ := Prod.mk.inj (Option.some.inj (hpacket'.symm.trans hpacket))
      rw [h.knownChunks_eq hn hreply hmsg hread]
      exact fun k hk => Core.entries_mem hk

/-! ## What `a` knows of `b` -/

theorem misses_append (a b : ι) (es : List (Event ι)) (e : Event ι) :
    misses a b (es ++ [e]) = match e with
      | .hear a' b' => if a' = a ∧ b' = b then 0 else misses a b es
      | .miss a' b' => if a' = a ∧ b' = b then misses a b es + 1 else misses a b es
      | _ => misses a b es := by
  rw [misses, List.foldl_append]
  rfl

theorem since_append (hboot : e.boots a = false) : since a (es ++ [e]) = since a es ++ [e] :=
  List.rtakeWhile_concat_pos _ _ e (by rw [hboot]; rfl)

theorem since_append_boot (hboot : e.boots a = true) : since a (es ++ [e]) = [] :=
  List.rtakeWhile_concat_neg _ _ e (by rw [hboot]; exact Bool.false_ne_true)

theorem misses_append_of_ne (hhear : e ≠ .hear a b) (hmiss : e ≠ .miss a b) :
    misses a b (es ++ [e]) = misses a b es := by
  rw [misses_append]
  split
  · next a' b' => exact if_neg fun h => hhear (by rw [h.1, h.2])
  · next a' b' => exact if_neg fun h => hmiss (by rw [h.1, h.2])
  · rfl

/-- **What a step does to what `a` knows of `b`**: an answer of `b` sets it, the third miss and a
boot of `a` clear it, and nothing else changes it. -/
theorem view_cases (haddr : Function.Injective fun a => address (addr a)) (h : Inv n s)
    (hab : a ≠ b) (hs : Steps addr clock s e s') :
    (e = .hear a b ∧ s'.lapses addr a b = 0 ∧ ∃ msg aa, s.packet a = some (b, msg)
        ∧ amAliveUnMarshal (.whole msg) = .ok (.ok aa)
        ∧ s'.view addr a b = aa.knownChunks.map KnownChunk.report)
    ∨ (e = .miss a b ∧ s'.lapses addr a b ≤ s.lapses addr a b + 1
        ∧ (s'.view addr a b = s.view addr a b
          ∨ 2 ≤ s.lapses addr a b ∧ s'.view addr a b = []))
    ∨ (e.boots a = true ∧ s'.lapses addr a b = 0 ∧ s'.view addr a b = [])
    ∨ (e.boots a = false ∧ e ≠ .hear a b ∧ e ≠ .miss a b
        ∧ s'.lapses addr a b = s.lapses addr a b ∧ s'.view addr a b = s.view addr a b) := by
  have hother : ∀ {c : ι}, b ≠ c → address (addr b) ≠ address (addr c) ∧ addr b ≠ addr c :=
    fun hne => ⟨haddr.ne hne, fun heq => hne (haddr (congrArg address heq))⟩
  simp only [view, lapses]
  cases gossip_cases hs a with
  | nothing hboot hhear hmiss hsg htimeouts =>
    exact Or.inr (Or.inr (Or.inr ⟨hboot, hhear b, hmiss b, by rw [htimeouts], by rw [hsg]⟩))
  | booted hstarted htimeouts =>
    refine Or.inr (Or.inr (Or.inl ⟨decide_eq_true rfl, by rw [htimeouts], ?_⟩))
    exact hstarted.spec.2 _ (hother (Ne.symm hab)).1
  | @heard c msg aa _ hpacket hread hprocess =>
    obtain ⟨-, htimeouts, hheld⟩ :=
      Net.process_spec (h.sound a) (h.lists a c msg aa hpacket hread) hprocess
    rw [htimeouts, hheld]
    by_cases hc : b = c
    · subst hc
      exact Or.inl ⟨rfl, Function.update_self .., msg, aa, hpacket, hread, Function.update_self ..⟩
    · exact Or.inr (Or.inr (Or.inr ⟨rfl, by simpa using Ne.symm hc, by simp,
        Function.update_of_ne (hother hc).2 .., Function.update_of_ne (hother hc).1 ..⟩))
  | @missed c _ hne hmiss =>
    obtain ⟨-, hle, hsame, hheld⟩ := Net.miss_spec (h.sound a) hmiss
    by_cases hc : b = c
    · subst hc
      refine Or.inr (Or.inl ⟨rfl, hle, hheld.imp (fun heq => by rw [heq]) fun ⟨h2, heq⟩ => ?_⟩)
      exact ⟨h2, by rw [heq, Function.update_self]⟩
    · refine Or.inr (Or.inr (Or.inr ⟨rfl, by simp, by simpa using Ne.symm hc,
        hsame _ (hother hc).2, ?_⟩))
      rcases hheld with heq | ⟨-, heq⟩
      · rw [heq]
      · rw [heq, Function.update_of_ne (hother hc).1]
  | added hadd htimeouts =>
    have hheld := ((h.sound a).held_addServerToGroup hadd).2
    exact Or.inr (Or.inr (Or.inr ⟨rfl, by simp, by simp, by rw [htimeouts], by rw [hheld]⟩))
  | reported hlist hset htimeouts =>
    have hheld := ((h.sound a).setKnownChunks (h.lists_report hlist) hset).2
    exact Or.inr (Or.inr (Or.inr ⟨rfl, by simp, by simp, by rw [htimeouts],
      hheld _ (hother (Ne.symm hab)).1⟩))

/-- What `a` knows of `b` after the events `es`. -/
def Known (addr : ι → Bytes) (clock : ι → ℕ → Time) (init : Peers ι) (n : ℕ) (a b : ι)
    (es : List (Event ι)) (view : List AmAliveChunk) : Prop :=
  (view = [] ∧ (.hear a b ∉ since a es ∨ 3 ≤ misses a b (since a es)))
    ∨ ∃ es₀ es₁ chunks, es = es₀ ++ .hear a b :: es₁
      ∧ (∀ e ∈ es₁, e ≠ .hear a b ∧ e.boots a = false)
      ∧ Answered addr clock init n a b es₀ chunks ∧ view = chunks.map KnownChunk.report

/-- What is known goes on being known. -/
theorem Known.append {view : List AmAliveChunk} (h : Known addr clock init n a b es view)
    (hhear : e ≠ .hear a b) (hboot : e.boots a = false) :
    Known addr clock init n a b (es ++ [e]) view := by
  rcases h with ⟨rfl, hnot⟩ | ⟨es₀, es₁, chunks, rfl, hlast, hans, rfl⟩
  · rw [Known, since_append hboot]
    refine Or.inl ⟨rfl, hnot.imp (fun hnot hmem => ?_) fun h3 => ?_⟩
    · rcases List.mem_append.mp hmem with hmem | hmem
      · exact hnot hmem
      · exact hhear (List.mem_singleton.mp hmem).symm
    · rw [misses_append]
      split
      · rwa [if_neg fun h => hhear (by rw [h.1, h.2])]
      · split <;> omega
      · exact h3
  · refine Or.inr ⟨es₀, es₁ ++ [e], chunks, by simp, fun e' he' => ?_, hans, rfl⟩
    rcases List.mem_append.mp he' with he' | he'
    · exact hlast e' he'
    · exact List.mem_singleton.mp he' ▸ ⟨hhear, hboot⟩

/-- The answer on its way goes on being the last. -/
theorem Answered.append {chunks : List KnownChunk} (h : Answered addr clock init n a b es chunks)
    (hspares : e.Spares a) : Answered addr clock init n a b (es ++ [e]) chunks := by
  obtain ⟨es₀, t, now, t', es₁, s₀, rfl, hquiet, hrun, hchunks⟩ := h
  refine ⟨es₀, t, now, t', es₁ ++ [e], s₀, by simp, fun e' he' => ?_, hrun, hchunks⟩
  rcases List.mem_append.mp he' with he' | he'
  · exact hquiet e' he'
  · exact List.mem_singleton.mp he' ▸ hspares

/-- What the servers have come to after the events `es`. -/
structure Reaches (addr : ι → Bytes) (clock : ι → ℕ → Time) (init : Peers ι) (n : ℕ) (s : Peers ι)
    (es : List (Event ι)) : Prop extends Inv n s where
  run : Run (Steps addr clock) init es s
  answered : ∀ a b msg aa, s.packet a = some (b, msg) →
    amAliveUnMarshal (.whole msg) = .ok (.ok aa) →
      Answered addr clock init n a b es aa.knownChunks
  lapses_le : ∀ a b, a ≠ b → s.lapses addr a b ≤ misses a b (since a es)
  known : ∀ a b, a ≠ b → Known addr clock init n a b es (s.view addr a b)

theorem Starts.reaches (h : Starts addr n init) : Reaches addr clock init n init [] where
  toInv := h.inv
  run := .refl _
  answered a b msg aa hpacket := by
    rw [h.packet_eq a] at hpacket
    cases hpacket
  lapses_le a b _ := (h.timeouts_eq a (addr b)).le
  known a b hab := Or.inl ⟨h.view_eq a b hab, Or.inl List.not_mem_nil⟩

theorem Reaches.step (haddr : Function.Injective fun a => address (addr a)) (hn : n ≤ 2 ^ 32)
    (h : Reaches addr clock init n s es) (hs : Steps addr clock s e s') :
    Reaches addr clock init n s' (es ++ [e]) where
  toInv := h.toInv.step hn hs
  run := h.run.append (.cons hs (.refl s'))
  answered a b msg aa hpacket hread := by
    rcases packet_cases hs a with ⟨heq, hspares⟩ | hnone | ⟨b', t, now, t', aa', news, core, msg',
      rfl, hreply, hmsg, hpacket'⟩
    · exact (h.answered a b msg aa (heq ▸ hpacket) hread).append hspares
    · rw [hnone] at hpacket
      cases hpacket
    · obtain ⟨rfl, rfl⟩ := Prod.mk.inj (Option.some.inj (hpacket'.symm.trans hpacket))
      exact ⟨es, t, now, t', [], s, rfl, by simp, h.run, h.knownChunks_eq hn hreply hmsg hread⟩
  lapses_le a b hab := by
    have hle := h.lapses_le a b hab
    rcases view_cases haddr h.toInv hab hs with ⟨-, hzero, -⟩ | ⟨rfl, hle', -⟩ | ⟨-, hzero, -⟩
      | ⟨hboot, hhear, hmiss, heq, -⟩
    · omega
    · rw [since_append rfl, misses_append]
      dsimp only
      rw [if_pos ⟨rfl, rfl⟩]
      omega
    · omega
    · rw [since_append hboot, misses_append_of_ne hhear hmiss]
      omega
  known a b hab := by
    have hle := h.lapses_le a b hab
    have hknown := h.known a b hab
    rcases view_cases haddr h.toInv hab hs with ⟨rfl, -, msg, aa, hpacket, hread, hview⟩
      | ⟨rfl, -, hview | ⟨h2, hview⟩⟩ | ⟨hboot, -, hview⟩ | ⟨hboot, hhear, -, -, hview⟩
    · exact Or.inr ⟨es, [], aa.knownChunks, rfl, by simp, h.answered a b msg aa hpacket hread,
        hview⟩
    · exact hview ▸ hknown.append (by simp) rfl
    · refine Or.inl ⟨hview, Or.inr ?_⟩
      rw [since_append rfl, misses_append]
      dsimp only
      rw [if_pos ⟨rfl, rfl⟩]
      omega
    · refine Or.inl ⟨hview, Or.inl ?_⟩
      rw [since_append_boot hboot]
      exact List.not_mem_nil
    · exact hview ▸ hknown.append hhear hboot

/-- **What a server knows of another.**  Whatever happens to `n`-chunk servers with addresses of
their own, what `a` knows of `b` is what `b` had when it wrote the last answer that `a` has heard;
or it is nothing, and then `a` has not heard `b` since it booted, or missed it three times since.
And the holders in the group of `a` are as `a` knows of `b`. -/
theorem view_exact (haddr : Function.Injective fun a => address (addr a)) (hn : n ≤ 2 ^ 32)
    (hstart : Starts addr n init) (hrun : Run (Steps addr clock) init es s) (hab : a ≠ b) :
    Known addr clock init n a b es (s.view addr a b)
    ∧ ∀ server, (s.peer a).gossip.sg.servers.lookup (address (addr b)) = some (some server) →
      ∀ cid < n, ∃ holders, (s.peer a).gossip.sg.chunk cid = .ok holders
        ∧ (server ∈ holders ↔ cid ∈ (s.view addr a b).map AmAliveChunk.id) := by
  have hreaches := hrun.history (R := Reaches addr clock init n) hstart.reaches
    fun h hs => h.step haddr hn hs
  exact ⟨hreaches.known a b hab,
    fun server hserver cid hcid => (hreaches.sound a).mem_chunk hserver hcid⟩

/-- **A server can boot at any time**, and then knows of no other. -/
theorem exists_boot (haddr : Function.Injective fun a => address (addr a)) (s : Peers ι) (a : ι) :
    ∃ s', Steps addr clock s (.boot a none) s' ∧ ∀ b, b ≠ a → s'.view addr a b = [] := by
  obtain ⟨sg, hsg⟩ := ServerGroup.exists_created (s.peer a).world.core.chunks.length
    (address (addr a))
  refine ⟨_, ⟨sg, hsg, rfl⟩, fun b hb => ?_⟩
  dsimp only [view, set]
  rw [Function.update_self]
  exact (show ServerGroup.Started _ _ none sg from hsg).spec.2 _ (haddr.ne hb)

/-- The addresses of two servers. -/
def names : Bool → Bytes := fun b => if b then [98] else [97]

/-- The heartbeater of a group of one chunk, without servers. -/
def lone : Gossiper := ⟨.create 1, fun _ => 0, ⟨[], []⟩, 0⟩

/-- Two servers with one chunk each, which is absent. -/
def pair : Peers Bool := ⟨fun _ => ⟨⟨.new "" 1000 1, []⟩, lone⟩, fun _ => none⟩

/-- The second one gets the chunk, and the first one hears of it. -/
def newsOfChunk : List (Event Bool) :=
  [.core true (.event (.setPresent 0)), .answer false true 0 (fun _ => 0) 0, .hear false true]

theorem starts_pair : Starts names 1 pair :=
  ⟨fun _ => .create 1, fun _ _ _ => rfl, fun _ _ => rfl,
    fun _ => ⟨Core.filled_new _ _ _, List.length_replicate⟩, fun _ => rfl⟩

/-- A core that has got its chunk, and the list it sends. -/
theorem exists_oneChunk : ∃ w list core,
    World.Serves ⟨.new "" 1000 1, []⟩ (.event (.setPresent 0)) w
    ∧ w.core.presentChunksList (fun _ => 0) = .ok (list, core) ∧ list.length = 1
    ∧ Lists 1 (list.map KnownChunk.read) := by
  obtain ⟨w, hw, hpeopled⟩ := World.exists_peopled "" 1000 [] 1 (le_refl 1)
  have hserves : World.Serves ⟨.new "" 1000 1, []⟩ (.event (.setPresent 0)) w := by
    cases hw with
    | cons hs hrest =>
      cases hrest
      exact hs
  have hknown : 0 ≤ w.core.knownChunks := by
    have := hpeopled.toCounted.presentChunks_eq
    rw [Core.presentChunks] at this
    omega
  obtain ⟨list, core, hlist, hlen, -⟩ := hpeopled.filled.presentChunksList hknown fun _ => 0
  refine ⟨w, list, core, hserves, hlist, hlen.trans hpeopled.count_eq, ?_⟩
  have heq := hpeopled.filled.presentChunksList_eq hlist
  rw [(World.Serves.filled hserves ⟨Core.filled_new _ _ _, List.length_replicate⟩).2] at heq
  intro c hc
  obtain ⟨k, hk, rfl⟩ := List.mem_map.mp hc
  obtain ⟨h0, hlt⟩ := Core.entries_mem (heq ▸ hk)
  rw [KnownChunk.read]
  dsimp only
  omega

/-- The news arrive. -/
theorem exists_newsOfChunk : ∃ s, Run (Steps names fun _ _ => 0) pair newsOfChunk s
    ∧ (s.view names false true).length = 1 := by
  obtain ⟨w, list, core, hserves, hlist, hone, hrange⟩ := exists_oneChunk
  obtain ⟨msg, hmsg, hread⟩ := @AmAlive.unmarshal_marshal_eq ⟨list, [], []⟩
    (by dsimp only; omega) (by simp)
  have hreply : Heartbeater.listenReply ⟨[], []⟩ w.core 0 (fun _ => 0) 0
      = .ok (⟨list, [], []⟩, ⟨[], []⟩, core) := by
    rw [Heartbeater.listenReply, hlist]
    rfl
  have hkeeps : Net.Keeps 1 ((net names (fun _ _ => 0) false).process (names true)
      ⟨list.map KnownChunk.read, [], []⟩ lone) := Net.keeps_process (.create 1) _ hrange
  cases hprocess : (net names (fun _ _ => 0) false).process (names true)
      ⟨list.map KnownChunk.read, [], []⟩ lone with
  | error f => exact (hkeeps.of_error hprocess).elim
  | ok gossip =>
    obtain ⟨-, -, hheld⟩ := Net.process_spec (n := 1) (.create 1) hrange hprocess
    obtain ⟨s₁, hstep₁, hpeer₁, hother₁⟩ : ∃ s₁, Steps names (fun _ _ => 0) pair
        (.core true (.event (.setPresent 0))) s₁
        ∧ s₁.peer true = ⟨w, lone⟩ ∧ s₁.peer false = pair.peer false :=
      ⟨_, ⟨by simp, w, hserves, rfl⟩, rfl, rfl⟩
    obtain ⟨s₂, hstep₂, hpacket₂, hother₂⟩ : ∃ s₂, Steps names (fun _ _ => 0) s₁
        (.answer false true 0 (fun _ => 0) 0) s₂
        ∧ s₂.packet false = some (true, msg) ∧ s₂.peer false = s₁.peer false :=
      ⟨_, ⟨by decide, _, _, core, msg, by rw [hpeer₁]; exact hreply, hmsg, rfl⟩, rfl, rfl⟩
    obtain ⟨s₃, hstep₃, hpeer₃⟩ : ∃ s₃, Steps names (fun _ _ => 0) s₂ (.hear false true) s₃
        ∧ (s₃.peer false).gossip = gossip :=
      ⟨_, ⟨msg, _, gossip, hpacket₂, hread, by rw [hother₂, hother₁]; exact hprocess, rfl⟩, rfl⟩
    refine ⟨s₃, .cons hstep₁ (.cons hstep₂ (.cons hstep₃ (.refl s₃))), ?_⟩
    rw [view, hpeer₃, hheld, Function.update_self, List.length_map, List.length_map, hone]

/-- The first one knows of the chunk, until it boots. -/
theorem view_exact_pair : ∃ s s', Starts names 1 pair
    ∧ Run (Steps names fun _ _ => 0) pair newsOfChunk s ∧ (s.view names false true).length = 1
    ∧ (∃ es₀ es₁ chunks, newsOfChunk = es₀ ++ .hear false true :: es₁
      ∧ Answered names (fun _ _ => 0) pair 1 false true es₀ chunks
      ∧ s.view names false true = chunks.map KnownChunk.report)
    ∧ Run (Steps names fun _ _ => 0) pair (newsOfChunk ++ [.boot false none]) s'
    ∧ Known names (fun _ _ => 0) pair 1 false true (newsOfChunk ++ [.boot false none]) [] := by
  have haddr : Function.Injective fun a => address (names a) := by decide
  have hne : false ≠ true := by decide
  obtain ⟨s, hrun, hlength⟩ := exists_newsOfChunk
  obtain ⟨s', hboot, hgone⟩ : ∃ s', Steps names (fun _ _ => 0) s (.boot false none) s' ∧ _ :=
    exists_boot haddr s false
  have hrun' := hrun.append (.cons hboot (.refl s'))
  have hknown := (view_exact haddr (by decide) starts_pair hrun' hne).1
  rw [hgone true hne.symm] at hknown
  rcases (view_exact haddr (by decide) starts_pair hrun hne).1 with
    ⟨hnil, -⟩ | ⟨es₀, es₁, chunks, hes, -, hans, hchunks⟩
  · rw [hnil] at hlength
    cases hlength
  · exact ⟨s, s', starts_pair, hrun, hlength, ⟨es₀, es₁, chunks, hes, hans, hchunks⟩, hrun',
      hknown⟩

end Peers

end Treeless
