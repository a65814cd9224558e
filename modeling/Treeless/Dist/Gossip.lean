import Treeless.Machinery.Fuel
import Treeless.Dist.ServerGroup
import Treeless.Dist.Heartbeater
import Mathlib.Logic.Relation

/-!
# Dist/Gossip — the requests a heartbeat leads to

    request a ──no answer──▸ request a              (up to the third time)
       │
       └─ answer ─▸ a joins the group
            ├─ added: b, not on the group ─▸ request b
            └─ dead:  b, on the group     ─▸ request b

A server that answers is asked for once as long as it is not on the group.  But nothing ever leaves
the group: a server found dead stays on it (`DeadServer` only takes its chunks), so news of a death
are followed every time.  Two servers that answer, and each of which says that the other is dead,
keep the heartbeater going between them for ever.  Requests end, whatever the group, if no such
round exists (`Net.Acyclic`): each goes to a server that was missing on the group, or to one that
accuses fewer (`ends_of_acyclic`).
-/

namespace Treeless

/-! ## The heartbeater -/

/-- An address, as the text it is looked up by. -/
def address (addr : Bytes) : String := String.ofList (addr.map fun b => Char.ofNat b.toNat)

namespace ServerGroup

variable (sg : ServerGroup)

def isServerOnGroup (addr : String) : Bool := (sg.servers.lookup addr).isSome

/-- `SetServerChunks` with the chunks of a heartbeat: a negative ID is as much out of range as one
behind the last chunk. -/
def setKnownChunks (addr : String) (chunks : List KnownChunk) : Call ServerGroup :=
  sg.setServerChunks addr <| chunks.map fun c =>
    ⟨if 0 ≤ c.id then c.id.toNat else sg.chunks.length, c.checksum⟩

end ServerGroup

namespace Heartbeater

/-- Sets an entry of a news map. -/
def note (addr : Bytes) (t : Time) (news : List (Bytes × Time)) : List (Bytes × Time) :=
  news.filter (fun entry => entry.1 ≠ addr) ++ [(addr, t)]

def gossipAdded (h : Heartbeater) (t t' : Time) (addr : Bytes) : Heartbeater :=
  let h := h.cleanNews t
  { h with recentlyAddedServers := note addr t' h.recentlyAddedServers }

def gossipDead (h : Heartbeater) (t t' : Time) (addr : Bytes) : Heartbeater :=
  let h := h.cleanNews t
  { h with recentlyDeadServers := note addr t' h.recentlyDeadServers }

end Heartbeater

/-- A heartbeater, with what its requests read and change. -/
structure Gossiper where
  sg : ServerGroup
  /-- The timeouts of each address; 0 is no entry. -/
  timeouts : Bytes → ℕ
  news : Heartbeater
  /-- How often the clock has been read. -/
  ticks : ℕ

/-- What a heartbeater meets: the reply to a ping of each address (`none` is a failure), its own
address, and the readings of its clock. -/
structure Net where
  reply : Bytes → Option AmAlive
  localhostIPPort : Bytes
  now : ℕ → Time

namespace Gossiper

variable (h : Gossiper)

/-- `h.sg.IsServerOnGroup(addr)` -/
def On (addr : Bytes) : Prop := h.sg.isServerOnGroup (address addr) = true

instance (addr : Bytes) : Decidable (h.On addr) :=
  inferInstanceAs (Decidable (h.sg.isServerOnGroup (address addr) = true))

def setTimeouts (addr : Bytes) (n : ℕ) : Gossiper :=
  { h with timeouts := Function.update h.timeouts addr n }

end Gossiper

namespace Net

variable (net : Net)

/-- The third timeout: the server is dead. -/
def lose (addr : Bytes) (h : Gossiper) : Call Gossiper := do
  let h := h.setTimeouts addr 0
  let (_, sg) ← h.sg.deadServer (address addr)
  return { h with
    sg
    news := h.news.gossipDead (net.now h.ticks) (net.now (h.ticks + 1)) addr
    ticks := h.ticks + 2 }

/-- An answering server that is not on the group joins it. -/
def join (addr : Bytes) (h : Gossiper) : Call Gossiper :=
  if h.On addr then .ok h
  else do
    let (_, sg) ← h.sg.addServerToGroup (address addr)
    return { h with
      sg
      news := h.news.gossipAdded (net.now h.ticks) (net.now (h.ticks + 1)) addr
      ticks := h.ticks + 2 }

/-- What a reply says of the server itself. -/
def process (addr : Bytes) (aa : AmAlive) (h : Gossiper) : Call Gossiper := do
  let h ← net.join addr (h.setTimeouts addr 0)
  let sg ← h.sg.setKnownChunks (address addr) aa.knownChunks
  return { h with sg }

/-- The loop over news: every server that is, or is not, on the group is asked for more. -/
def ask (request : Bytes → Gossiper → Call (Bool × Gossiper)) (wanted : Bool) (news : List Bytes)
    (h : Gossiper) : Call Gossiper :=
  news.foldlM (fun h new =>
    if h.sg.isServerOnGroup (address new) = wanted then Prod.snd <$> request new h else .ok h) h

/-- Requests a heartbeat; `fuel` bounds how deep requests are nested. -/
def request : ℕ → Bytes → Gossiper → Call (Bool × Gossiper)
  | 0, _, _ => .error .endless
  | fuel + 1, addr, h =>
    if addr = net.localhostIPPort then .ok (true, h)
    else match net.reply addr with
      | none =>
        if h.On addr then
          let h := h.setTimeouts addr (h.timeouts addr + 1)
          if h.timeouts addr ≥ 3 then (fun h => (false, h)) <$> net.lose addr h
          else request fuel addr h
        else .ok (false, h.setTimeouts addr 0)
      | some aa => do
        let h ← net.process addr aa h
        let h ← ask (request fuel) false aa.recentlyAddedServers h
        let h ← ask (request fuel) true aa.recentlyDeadServers h
        return (true, h)

end Net

/-! ## How a request goes on -/

@[simp] theorem Gossiper.timeouts_setTimeouts (h : Gossiper) (addr : Bytes) (n : ℕ) :
    (h.setTimeouts addr n).timeouts addr = n := Function.update_self ..

namespace Net

variable {net : Net} {addr : Bytes} (fuel : ℕ) (h : Gossiper)

theorem request_local (hlocal : addr = net.localhostIPPort) :
    net.request (fuel + 1) addr h = .ok (true, h) := if_pos hlocal

theorem request_failed (hlocal : addr ≠ net.localhostIPPort) (hfail : net.reply addr = none) :
    net.request (fuel + 1) addr h
      = if h.On addr then
          if 3 ≤ h.timeouts addr + 1 then
            (fun h => (false, h)) <$> net.lose addr (h.setTimeouts addr (h.timeouts addr + 1))
          else net.request fuel addr (h.setTimeouts addr (h.timeouts addr + 1))
        else .ok (false, h.setTimeouts addr 0) := by
  rw [request, if_neg hlocal, hfail]
  simp only [ge_iff_le, Gossiper.timeouts_setTimeouts]

theorem request_answered (hlocal : addr ≠ net.localhostIPPort) {aa : AmAlive}
    (hreply : net.reply addr = some aa) :
    net.request (fuel + 1) addr h = (do
      let h ← net.process addr aa h
      let h ← ask (net.request fuel) false aa.recentlyAddedServers h
      let h ← ask (net.request fuel) true aa.recentlyDeadServers h
      return (true, h)) := by
  rw [request, if_neg hlocal, hreply]

end Net

/-! ## The group only grows -/

namespace ServerGroup

variable (sg : ServerGroup)

theorem stops_deref (s : Option ℕ) : (deref s).Stops fun _ => True := by
  cases s with
  | none => exact Fault.noConfusion
  | some s => exact trivial

theorem stops_foldlM_modifyChunk (f : VirtualChunk → VirtualChunk) (cids : List ℕ)
    (chunks : List VirtualChunk) :
    (cids.foldlM (modifyChunk f) chunks).Stops fun _ => True := by
  refine Call.Ends.foldlM (fun cid _ chunks _ => ?_) trivial
  rw [modifyChunk]
  split
  · exact trivial
  · exact Fault.noConfusion

theorem stops_setServerChunks (addr : String) (cids : List AmAliveChunk) :
    (sg.setServerChunks addr cids).Stops fun sg' => sg'.servers = sg.servers := by
  rw [setServerChunks]
  split
  · exact rfl
  · refine (stops_deref _).bind fun s => (stops_foldlM_modifyChunk ..).bind fun chunks => ?_
    exact (stops_foldlM_modifyChunk ..).bind fun _ => rfl

theorem stops_deadServer (addr : String) :
    (sg.deadServer addr).Stops fun p => p.2.servers = sg.servers := by
  rw [deadServer]
  split
  · exact rfl
  · exact (stops_deref _).bind fun s => (stops_foldlM_modifyChunk ..).bind fun _ => rfl

/-- A server that is added is on the group, with those that were. -/
theorem stops_addServerToGroup (addr : String) : (sg.addServerToGroup addr).Stops fun p =>
    ∀ a, p.2.isServerOnGroup a = true ↔ a = addr ∨ sg.isServerOnGroup a = true := by
  have hmem : ∀ {servers : AList fun _ : String => Option ℕ} {a : String},
      (servers.lookup a).isSome = true ↔ a ∈ servers := AList.lookup_isSome
  rw [addServerToGroup]
  split
  · next s hs =>
    intro a
    refine ⟨Or.inr, ?_⟩
    rintro (rfl | ha)
    · exact Option.isSome_iff_exists.mpr ⟨s, hs⟩
    · exact ha
  · split
    · intro a
      rw [isServerOnGroup, isServerOnGroup, hmem, hmem]
      exact AList.mem_insert _
    · exact Fault.noConfusion

end ServerGroup

namespace Gossiper

/-- Every server on the group of `h` is on that of `h'`. -/
def Grows (h h' : Gossiper) : Prop := ∀ a, h.On a → h'.On a

theorem Grows.refl (h : Gossiper) : h.Grows h := fun _ ha => ha

theorem Grows.trans {h h' h'' : Gossiper} (hg : h.Grows h') (hg' : h'.Grows h'') : h.Grows h'' :=
  fun a ha => hg' a (hg a ha)

theorem on_of_servers_eq {h h' : Gossiper} (heq : h'.sg.servers = h.sg.servers) (a : Bytes) :
    h'.On a ↔ h.On a := by
  rw [On, On, ServerGroup.isServerOnGroup, ServerGroup.isServerOnGroup, heq]

end Gossiper

namespace Net

variable (net : Net)

open Gossiper (Grows)

theorem stops_lose (addr : Bytes) (h : Gossiper) : (net.lose addr h).Stops h.Grows := by
  refine (ServerGroup.stops_deadServer _ _).seq fun p hp => ?_
  exact fun a ha => (Gossiper.on_of_servers_eq hp a).mpr ha

theorem stops_join (addr : Bytes) (h : Gossiper) :
    (net.join addr h).Stops fun h' => h'.On addr ∧ h.Grows h' := by
  rw [join]
  split
  · next hon => exact ⟨hon, .refl h⟩
  · refine (ServerGroup.stops_addServerToGroup _ _).seq fun p hp => ?_
    exact ⟨(hp _).mpr (Or.inl rfl), fun a ha => (hp _).mpr (Or.inr ha)⟩

/-- **A server that answers is on the group.** -/
theorem stops_process (addr : Bytes) (aa : AmAlive) (h : Gossiper) :
    (net.process addr aa h).Stops fun h' => h'.On addr ∧ h.Grows h' := by
  refine (net.stops_join addr _).seq fun h₁ h₁' => ?_
  refine (ServerGroup.stops_setServerChunks _ _ _).seq fun sg hsg => ?_
  have hon : ∀ a, h₁.On a → ({ h₁ with sg } : Gossiper).On a := fun a =>
    (Gossiper.on_of_servers_eq hsg a).mpr
  exact ⟨hon addr h₁'.1, fun a ha => hon a (h₁'.2 a ha)⟩

theorem grows_ask {request : Bytes → Gossiper → Call (Bool × Gossiper)}
    (hreq : ∀ new h, (request new h).Returns fun p => h.Grows p.2) (wanted : Bool)
    (news : List Bytes) (h : Gossiper) : (ask request wanted news h).Returns h.Grows := by
  refine Call.Returns.foldlM (fun h₁ new hg => ?_) news (.refl h)
  split
  · intro h₂ hx
    obtain ⟨p, hp, rfl⟩ := Call.map_eq_ok.mp hx
    exact hg.trans (hreq new h₁ p hp)
  · exact .ok hg

/-- **No request takes a server off the group.** -/
theorem grows_request : ∀ (fuel : ℕ) (addr : Bytes) (h : Gossiper),
    (net.request fuel addr h).Returns fun p => h.Grows p.2
  | 0, _, _ => .fault _
  | fuel + 1, addr, h => by
      by_cases hlocal : addr = net.localhostIPPort
      · rw [request_local fuel h hlocal]
        exact .ok (.refl h)
      cases hreply : net.reply addr with
      | none =>
        rw [request_failed fuel h hlocal hreply]
        split
        · split
          · intro p hx
            obtain ⟨h', hh', rfl⟩ := Call.map_eq_ok.mp hx
            have hg := (net.stops_lose addr (h.setTimeouts addr (h.timeouts addr + 1))).returns
            exact hg h' hh'
          · exact grows_request fuel addr _
        · exact .ok (.refl h)
      | some aa =>
        rw [request_answered fuel h hlocal hreply]
        refine Call.Returns.seq (net.stops_process addr _ h).returns fun h₁ h₁' => ?_
        refine Call.Returns.seq (grows_ask (grows_request fuel) _ _ h₁) fun h₂ h₂' => ?_
        refine Call.Returns.seq (grows_ask (grows_request fuel) _ _ h₂) fun h₃ h₃' => ?_
        exact .ok ((h₁'.2.trans h₂').trans h₃')

/-! ## More fuel -/

theorem cutOff_ask {request request' : Bytes → Gossiper → Call (Bool × Gossiper)}
    (hreq : ∀ new h, (request new h).CutOff (request' new h)) (wanted : Bool) (news : List Bytes)
    (h : Gossiper) : (ask request wanted news h).CutOff (ask request' wanted news h) := by
  refine Call.CutOff.foldlM (fun h₁ new => ?_) news h
  split
  · exact (hreq new h₁).map _
  · exact .refl _

/-- **More fuel changes nothing** but where a request is cut off. -/
theorem cutOff_request : ∀ (fuel : ℕ) (addr : Bytes) (h : Gossiper),
    (net.request fuel addr h).CutOff (net.request (fuel + 1) addr h)
  | 0, _, _ => Or.inl rfl
  | fuel + 1, addr, h => by
      by_cases hlocal : addr = net.localhostIPPort
      · rw [request_local fuel h hlocal, request_local (fuel + 1) h hlocal]
        exact .refl _
      cases hreply : net.reply addr with
      | none =>
        rw [request_failed fuel h hlocal hreply, request_failed (fuel + 1) h hlocal hreply]
        split
        · split
          · exact .refl _
          · exact cutOff_request fuel addr _
        · exact .refl _
      | some aa =>
        rw [request_answered fuel h hlocal hreply, request_answered (fuel + 1) h hlocal hreply]
        refine (Call.CutOff.refl _).bind fun h₁ => ?_
        refine (cutOff_ask (cutOff_request fuel) _ _ h₁).bind fun h₂ => ?_
        exact (cutOff_ask (cutOff_request fuel) _ _ h₂).bind fun h₃ => .refl _

/-- The request ends. -/
def Ends (addr : Bytes) (h : Gossiper) : Prop := Call.Halts fun fuel => net.request fuel addr h

variable {net} {addr : Bytes}

theorem ends_of_localhost (hlocal : addr = net.localhostIPPort) (h : Gossiper) :
    net.Ends addr h := ⟨1, fun hx => by cases (request_local 0 h hlocal).symm.trans hx⟩

/-- **A server that does not answer** is asked three times at most. -/
theorem ends_of_failure (hlocal : addr ≠ net.localhostIPPort) (hfail : net.reply addr = none)
    (h : Gossiper) : net.Ends addr h := by
  -- the induction is on the timeouts that are left
  have hmain : ∀ (k : ℕ) (h : Gossiper), 3 ≤ h.timeouts addr + k →
      (net.request (k + 1) addr h).Stops fun _ => True := by
    intro k
    induction k with
    | zero =>
      intro h hk
      rw [request_failed 0 h hlocal hfail, if_pos (show 3 ≤ h.timeouts addr + 1 by omega)]
      split
      · exact (net.stops_lose addr _).map _
      · exact trivial
    | succ k ih =>
      intro h hk
      rw [request_failed (k + 1) h hlocal hfail]
      split
      · split
        · exact (net.stops_lose addr _).map _
        · exact ih _ (by rw [Gossiper.timeouts_setTimeouts]; omega)
      · exact trivial
  exact ⟨_, (hmain 3 h (Nat.le_add_left ..)).ne_endless⟩

/-! ## Requests that end -/

/-- The names a server gives are all among the addresses of `A`. -/
def Names (net : Net) (A : Finset Bytes) : Prop :=
  ∀ a ∈ A, ∀ aa, net.reply a = some aa →
    (∀ b ∈ aa.recentlyAddedServers, b ∈ A) ∧ ∀ b ∈ aa.recentlyDeadServers, b ∈ A

/-- `a` answers, and says that `b` is dead, which answers too; neither is the heartbeater itself. -/
def Accuses (net : Net) (a b : Bytes) : Prop :=
  a ≠ net.localhostIPPort ∧ b ≠ net.localhostIPPort
    ∧ (∃ aa, net.reply a = some aa ∧ b ∈ aa.recentlyDeadServers) ∧ net.reply b ≠ none

/-- No server of `A` comes round to itself by accusations. -/
def Acyclic (net : Net) (A : Finset Bytes) : Prop :=
  ∀ a ∈ A, ¬ Relation.TransGen net.Accuses a a

section Measure

open scoped Classical

variable {A : Finset Bytes} {a b : Bytes} {h h' : Gossiper}

/-- The servers of `A` that are not on the group, and would not be after a request of `a`. -/
noncomputable def missing (A : Finset Bytes) (a : Bytes) (h : Gossiper) : Finset Bytes :=
  A.filter fun b => ¬ h.On b ∧ b ≠ a

/-- The servers of `A` that accusations lead to from `a`. -/
noncomputable def accused (net : Net) (A : Finset Bytes) (a : Bytes) : Finset Bytes :=
  A.filter fun b => Relation.TransGen net.Accuses a b

theorem missing_subset (hg : h.Grows h') (ha : h'.On a) : missing A b h' ⊆ missing A a h := by
  intro c hc
  obtain ⟨hcA, hnot, -⟩ := Finset.mem_filter.mp hc
  refine Finset.mem_filter.mpr ⟨hcA, fun hon => hnot (hg c hon), ?_⟩
  rintro rfl
  exact hnot ha

/-- A server that is not on the group yet is one fewer missing. -/
theorem missing_ssubset (hg : h.Grows h') (ha : h'.On a) (hb : b ∈ A) (hnot : ¬ h'.On b) :
    missing A b h' ⊂ missing A a h := by
  refine Finset.ssubset_iff_of_subset (missing_subset hg ha) |>.mpr ⟨b, ?_, ?_⟩
  · refine Finset.mem_filter.mpr ⟨hb, fun hon => hnot (hg b hon), ?_⟩
    rintro rfl
    exact hnot ha
  · exact fun hmem => (Finset.mem_filter.mp hmem).2.2 rfl

/-- Without rounds, accusations lead to fewer and fewer servers. -/
theorem accused_ssubset (hacyclic : net.Acyclic A) (hb : b ∈ A) (hab : net.Accuses a b) :
    accused net A b ⊂ accused net A a := by
  refine Finset.ssubset_iff_of_subset (fun c hc => ?_) |>.mpr ⟨b, ?_, fun hmem => ?_⟩
  · obtain ⟨hcA, hbc⟩ := Finset.mem_filter.mp hc
    exact Finset.mem_filter.mpr ⟨hcA, .head hab hbc⟩
  · exact Finset.mem_filter.mpr ⟨hb, .single hab⟩
  · exact hacyclic b hb (Finset.mem_filter.mp hmem).2

end Measure

/-- A loop over news ends, if the requests it makes do. -/
theorem halts_ask {wanted : Bool} {news : List Bytes} {h : Gossiper}
    (hreq : ∀ new ∈ news, ∀ h', h.Grows h' → (h'.sg.isServerOnGroup (address new) = wanted) →
      net.Ends new h') : Call.Halts fun fuel => ask (net.request fuel) wanted news h := by
  refine Call.Halts.foldlM (P := h.Grows) (fun h₁ new fuel => ?_) (fun fuel h₁ new hg => ?_)
    (.refl h) fun new hnew h₁ hg => ?_
  · dsimp only
    split
    · exact (net.cutOff_request fuel new h₁).map _
    · exact .refl _
  · split
    · intro h₂ hx
      obtain ⟨p, hp, rfl⟩ := Call.map_eq_ok.mp hx
      exact hg.trans (net.grows_request fuel new h₁ p hp)
    · exact .ok hg
  · split
    · next hwanted => exact (hreq new hnew h₁ hg hwanted).map _
    · exact ⟨0, fun hx => by cases hx⟩

/-- **A request that is answered ends**, if the requests it makes do: those for new servers that are
not on the group, and those for dead ones. -/
theorem ends_of_answered {a : Bytes} {aa : AmAlive} {h : Gossiper}
    (hlocal : a ≠ net.localhostIPPort) (hreply : net.reply a = some aa)
    (hadded : ∀ new ∈ aa.recentlyAddedServers, ∀ h', h.Grows h' → h'.On a → ¬ h'.On new →
      net.Ends new h')
    (hdead : ∀ dead ∈ aa.recentlyDeadServers, ∀ h', h.Grows h' → h'.On a → net.Ends dead h') :
    net.Ends a h := by
  have hsteady : ∀ wanted news h₀,
      Call.Steady fun fuel => ask (net.request fuel) wanted news h₀ := fun wanted news h₀ fuel =>
    cutOff_ask (net.cutOff_request fuel) wanted news h₀
  refine Call.Halts.of_succ ?_
  simp only [request_answered _ h hlocal hreply]
  refine Call.Halts.bind (fun _ => .refl _) (fun h₁ fuel => ?_)
    ⟨0, (net.stops_process a aa h).ne_endless⟩ fun _ h₁ hh₁ => ?_
  · exact (hsteady _ _ h₁ fuel).bind fun h₂ => (hsteady _ _ h₂ fuel).bind fun _ => .refl _
  obtain ⟨hon₁, hg₁⟩ := (net.stops_process a aa h).returns h₁ hh₁
  refine Call.Halts.bind (hsteady _ _ h₁)
    (fun h₂ fuel => (hsteady _ _ h₂ fuel).bind fun _ => .refl _)
    (halts_ask fun new hnew h' hg' hoff => ?_) fun fuel h₂ hh₂ => ?_
  · refine hadded new hnew h' (hg₁.trans hg') (hg' a hon₁) fun hon => ?_
    rw [Gossiper.On, hoff] at hon
    cases hon
  have hg₂ := grows_ask (net.grows_request fuel) _ _ h₁ h₂ hh₂
  exact Call.Halts.bind (hsteady _ _ h₂) (fun _ _ => .refl _)
    (halts_ask fun dead hmem h' hg' _ =>
      hdead dead hmem h' ((hg₁.trans hg₂).trans hg') (hg' a (hg₂ a hon₁)))
    fun _ _ _ => ⟨0, fun hx => by cases hx⟩

/-- **Requests end** if there are no rounds: a server asked for as new was missing, and one asked
for as dead accuses fewer. -/
theorem ends_of_acyclic {A : Finset Bytes} (hnames : net.Names A) (hacyclic : net.Acyclic A) :
    ∀ (k r : ℕ) {a : Bytes} {h : Gossiper}, a ∈ A → (missing A a h).card ≤ k →
      (accused net A a).card ≤ r → net.Ends a h := by
  intro k
  induction k using Nat.strong_induction_on with
  | _ k ihk =>
  intro r
  induction r using Nat.strong_induction_on with
  | _ r ihr =>
  intro a h ha hk hr
  by_cases hlocal : a = net.localhostIPPort
  · exact ends_of_localhost hlocal h
  cases hreply : net.reply a with
  | none => exact ends_of_failure hlocal hreply h
  | some aa =>
    obtain ⟨hadded, hdead⟩ := hnames a ha aa hreply
    refine ends_of_answered hlocal hreply (fun new hnew h' hg hon hnot => ?_)
      fun dead hmem h' hg hon => ?_
    · have hlt := Finset.card_lt_card (missing_ssubset hg hon (hadded new hnew) hnot)
      exact ihk _ (hlt.trans_le hk) _ (hadded new hnew) le_rfl le_rfl
    by_cases hlocal' : dead = net.localhostIPPort
    · exact ends_of_localhost hlocal' h'
    by_cases hfail : net.reply dead = none
    · exact ends_of_failure hlocal' hfail h'
    · have hacc : net.Accuses a dead := ⟨hlocal, hlocal', ⟨aa, hreply, hmem⟩, hfail⟩
      have hle := Finset.card_le_card (missing_subset (A := A) (b := dead) hg hon)
      have hlt := Finset.card_lt_card (accused_ssubset hacyclic (hdead dead hmem) hacc)
      exact ihr _ (hlt.trans_le hr) (hdead dead hmem) (hle.trans hk) le_rfl

end Net

end Treeless
