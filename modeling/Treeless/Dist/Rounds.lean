import Treeless.Dist.Gossip

/-!
# Dist/Rounds — accusations that lead round

    a ──"b is dead"──▸ b ──"c is dead"──▸ c ──"a is dead"──▸ a

On a group without nil pointers, and with reports of chunks it has, no call of the heartbeater
faults (`goes_request`).  So if the servers of a round are on the group, a request of one of them
can only return or go on, and it goes on: the news of the next death are followed from wherever the
requests before them have led (`request_eq_endless`).
-/

namespace Treeless

/-! ## Groups without faults -/

namespace ServerGroup

variable {sg : ServerGroup} {n : ℕ} {addr : String}

/-- A group of `n` chunks on which no call panics. -/
structure Sound (n : ℕ) (sg : ServerGroup) : Prop extends sg.Inv n where
  made : sg.made = true
  pointed : ∀ a, sg.servers.lookup a ≠ some none

namespace Sound

theorem create (n : ℕ) : (create n).Sound n := ⟨inv_create n, rfl, fun _ h => by cases h⟩

theorem exists_pointer (h : sg.Sound n) (hon : sg.isServerOnGroup addr = true) :
    ∃ s, sg.servers.lookup addr = some (some s) := by
  obtain ⟨p, hp⟩ := Option.isSome_iff_exists.mp hon
  cases p with
  | none => exact absurd hp (h.pointed addr)
  | some s => exact ⟨s, hp⟩

theorem exists_addServerToGroup (h : sg.Sound n) (addr : String) :
    ∃ e sg', sg.addServerToGroup addr = .ok (e, sg') ∧ sg'.Sound n := by
  have hinv : (sg.addServerToGroup addr).Returns fun r => r.2.Inv n := h.toInv.addServerToGroup
  rw [addServerToGroup] at hinv ⊢
  cases hlookup : sg.servers.lookup addr with
  | some p => exact ⟨_, sg, rfl, h⟩
  | none =>
    rw [hlookup] at hinv
    dsimp only at hinv ⊢
    rw [if_pos h.made] at hinv ⊢
    refine ⟨_, _, rfl, hinv _ rfl, h.made, fun a ha => ?_⟩
    dsimp only at ha
    by_cases haddr : a = addr
    · rw [haddr, AList.lookup_insert] at ha
      cases ha
    · rw [AList.lookup_insert_ne haddr] at ha
      exact h.pointed a ha

theorem exists_setServerChunks (h : sg.Sound n) (hon : sg.isServerOnGroup addr = true)
    {cids : List AmAliveChunk} (hlt : ∀ c ∈ cids, c.id < n) :
    ∃ sg', sg.setServerChunks addr cids = .ok sg' ∧ sg'.Sound n := by
  obtain ⟨s, hs⟩ := h.exists_pointer hon
  obtain ⟨sg', hset, hinv, hservers, hmade⟩ := h.toInv.exists_setServerChunks hs hlt
  exact ⟨sg', hset, hinv, hmade.trans h.made, fun a => hservers ▸ h.pointed a⟩

theorem exists_deadServer (h : sg.Sound n) (hon : sg.isServerOnGroup addr = true) :
    ∃ sg', sg.deadServer addr = .ok (none, sg') ∧ sg'.Sound n := by
  obtain ⟨s, hs⟩ := h.exists_pointer hon
  obtain ⟨sg', hdead, hinv, hservers, hmade⟩ := h.toInv.exists_deadServer hs
  exact ⟨sg', hdead, hinv, hmade.trans h.made, fun a => hservers ▸ h.pointed a⟩

end Sound

end ServerGroup

namespace Net

variable {net : Net} {A : Finset Bytes} {n : ℕ} {h : Gossiper} {addr : Bytes}

/-- The servers of `A` report chunks of a group of `n`. -/
def InRange (net : Net) (A : Finset Bytes) (n : ℕ) : Prop :=
  ∀ a ∈ A, ∀ aa, net.reply a = some aa → ∀ c ∈ aa.knownChunks, 0 ≤ c.id ∧ c.id < n

/-- The call returns, with a sound group. -/
abbrev Keeps (n : ℕ) (x : Call Gossiper) : Prop := x.Ends (fun _ => False) fun h => h.sg.Sound n

theorem keeps_lose (hs : h.sg.Sound n) (hon : h.On addr) : Keeps n (net.lose addr h) := by
  obtain ⟨sg', hdead, hs'⟩ := hs.exists_deadServer hon
  rw [lose]
  dsimp only [Gossiper.setTimeouts]
  rw [hdead]
  exact hs'

theorem keeps_join (hs : h.sg.Sound n) (addr : Bytes) : Keeps n (net.join addr h) := by
  rw [join]
  split
  · exact hs
  · obtain ⟨e, sg', hadd, hs'⟩ := hs.exists_addServerToGroup (address addr)
    rw [hadd]
    exact hs'

/-- A server that reports chunks of the group joins it without fault. -/
theorem keeps_process (hs : h.sg.Sound n) (addr : Bytes) {aa : AmAlive}
    (hrange : ∀ c ∈ aa.knownChunks, 0 ≤ c.id ∧ c.id < n) : Keeps n (net.process addr aa h) := by
  rw [process]
  have hjoin := net.keeps_join (h := h.setTimeouts addr 0) hs addr
  cases hx : net.join addr (h.setTimeouts addr 0) with
  | error f => exact (hjoin.of_error hx).elim
  | ok h₁ =>
    have hon := ((net.stops_join addr (h.setTimeouts addr 0)).returns h₁ hx).1
    have hlt : ∀ c ∈ aa.knownChunks.map fun c =>
        (⟨if 0 ≤ c.id then c.id.toNat else h₁.sg.chunks.length, c.checksum⟩ : AmAliveChunk),
        c.id < n := by
      intro c' hc'
      obtain ⟨c, hc, rfl⟩ := List.mem_map.mp hc'
      obtain ⟨hnonneg, hlt⟩ := hrange c hc
      dsimp only
      rw [if_pos hnonneg]
      omega
    obtain ⟨sg', hset, hs'⟩ := (hjoin.returns h₁ hx).exists_setServerChunks hon hlt
    rw [Call.ok_bind, ServerGroup.setKnownChunks, hset]
    exact hs'

/-! ## Requests on them -/

/-- The call returns with a sound group, or is cut off. -/
abbrev Goes (n : ℕ) (x : Call Gossiper) : Prop :=
  x.Ends (fun f => f = .endless) fun h => h.sg.Sound n

theorem Keeps.goes {x : Call Gossiper} (hx : Keeps n x) : Goes n x :=
  hx.mono (fun _ hf => hf.elim) fun _ hs => hs

theorem goes_snd {x : Call (Bool × Gossiper)}
    (hx : x.Ends (fun f => f = .endless) fun p => p.2.sg.Sound n) : Goes n (Prod.snd <$> x) := by
  cases x with
  | ok p => exact hx
  | error f => exact hx

theorem goes_ask {request : Bytes → Gossiper → Call (Bool × Gossiper)} {news : List Bytes}
    (hreq : ∀ new ∈ news, ∀ h : Gossiper, h.sg.Sound n →
      (request new h).Ends (fun f => f = .endless) fun p => p.2.sg.Sound n)
    (wanted : Bool) (hs : h.sg.Sound n) : Goes n (ask request wanted news h) := by
  refine Call.Ends.foldlM (fun new hnew h₁ hs₁ => ?_) hs
  split
  · exact goes_snd (hreq new hnew h₁ hs₁)
  · exact hs₁

/-- **On a sound group no request faults**, if the servers report chunks of the group. -/
theorem goes_request (hnames : net.Names A) (hrange : net.InRange A n) :
    ∀ (fuel : ℕ) {addr : Bytes} {h : Gossiper}, addr ∈ A → h.sg.Sound n →
      (net.request fuel addr h).Ends (fun f => f = .endless) fun p => p.2.sg.Sound n
  | 0, _, _, _, _ => rfl
  | fuel + 1, addr, h, hmem, hs => by
      by_cases hlocal : addr = net.localhostIPPort
      · rw [request_local fuel h hlocal]
        exact hs
      cases hreply : net.reply addr with
      | none =>
        rw [request_failed fuel h hlocal hreply]
        split
        · next hon =>
          split
          · have hlose := net.keeps_lose (h := h.setTimeouts addr (h.timeouts addr + 1)) hs hon
            cases hx : net.lose addr (h.setTimeouts addr (h.timeouts addr + 1)) with
            | ok h' => exact hlose.returns h' hx
            | error f => exact (hlose.of_error hx).elim
          · exact goes_request hnames hrange fuel hmem hs
        · exact hs
      | some aa =>
        obtain ⟨hadded, hdead⟩ := hnames addr hmem aa hreply
        rw [request_answered fuel h hlocal hreply]
        refine (keeps_process hs addr (hrange addr hmem aa hreply)).goes.seq fun h₁ hs₁ => ?_
        refine (goes_ask (fun new hnew h' => goes_request hnames hrange fuel (hadded new hnew))
          false hs₁).seq fun h₂ hs₂ => ?_
        exact (goes_ask (fun dead hmem' h' => goes_request hnames hrange fuel (hdead dead hmem'))
          true hs₂).seq fun h₃ hs₃ => hs₃

/-- A loop over news is cut off where a request is. -/
theorem ask_eq_endless {request : Bytes → Gossiper → Call (Bool × Gossiper)} {b : Bytes} :
    ∀ {news : List Bytes} {h : Gossiper}, (∀ new ∈ news, ∀ h' : Gossiper, h'.sg.Sound n →
      (request new h').Ends (fun f => f = .endless) fun p => p.2.sg.Sound n ∧ h'.Grows p.2) →
    b ∈ news → h.sg.Sound n → h.On b →
    (∀ h' : Gossiper, h'.sg.Sound n → h.Grows h' → request b h' = .error .endless) →
    ask request true news h = .error .endless
  | new :: news, h, hreq, hb, hs, hon, hend => by
      rw [ask, List.foldlM_cons]
      by_cases hnew : h.sg.isServerOnGroup (address new) = true
      · rw [if_pos hnew]
        cases hx : request new h with
        | error f =>
          rw [(hreq new List.mem_cons_self h hs).of_error hx]
          rfl
        | ok p =>
          obtain ⟨hs', hg⟩ := (hreq new List.mem_cons_self h hs).returns p hx
          rcases List.mem_cons.mp hb with rfl | hb
          · cases (hend h hs (.refl h)).symm.trans hx
          · exact ask_eq_endless (fun c hc => hreq c (List.mem_cons_of_mem new hc)) hb hs'
              (hg b hon) fun h' hs'' hg' => hend h' hs'' (hg.trans hg')
      · rw [if_neg hnew, Call.ok_bind]
        rcases List.mem_cons.mp hb with rfl | hb
        · exact absurd hon hnew
        · exact ask_eq_endless (fun c hc => hreq c (List.mem_cons_of_mem new hc)) hb hs hon hend

/-! ## Rounds -/

/-- **A round never ends**: in a set of servers on the group each of which accuses another, every
request leads to one more. -/
theorem request_eq_endless (hnames : net.Names A) (hrange : net.InRange A n) {C : Set Bytes}
    (hCA : ∀ a ∈ C, a ∈ A) (hC : ∀ a ∈ C, ∃ b ∈ C, net.Accuses a b) :
    ∀ (fuel : ℕ) {a : Bytes} {h : Gossiper}, a ∈ C → h.sg.Sound n → (∀ c ∈ C, h.On c) →
      net.request fuel a h = .error .endless
  | 0, _, _, _, _, _ => rfl
  | fuel + 1, a, h, ha, hs, hon => by
      obtain ⟨b, hb, hlocal, -, ⟨aa, hreply, hmem⟩, -⟩ := hC a ha
      obtain ⟨hadded, hdead⟩ := hnames a (hCA a ha) aa hreply
      have hgoes : ∀ new ∈ A, ∀ h' : Gossiper, h'.sg.Sound n → (net.request fuel new h').Ends
          (fun f => f = .endless) fun p => p.2.sg.Sound n ∧ h'.Grows p.2 := fun new hnew h' hs' =>
        (goes_request hnames hrange fuel hnew hs').and (net.grows_request fuel new h')
      rw [request_answered fuel h hlocal hreply]
      have hprocess := (keeps_process hs a (hrange a (hCA a ha) aa hreply)).and
        (net.stops_process a aa h).returns
      cases hx₁ : net.process a aa h with
      | error f => exact (hprocess.of_error hx₁).elim
      | ok h₁ =>
        obtain ⟨hs₁, -, hg₁⟩ := hprocess.returns h₁ hx₁
        have hask := (goes_ask (fun new hnew h' => goes_request hnames hrange fuel
          (hadded new hnew)) false hs₁).and (grows_ask (net.grows_request fuel) false _ h₁)
        rw [Call.ok_bind]
        cases hx₂ : ask (net.request fuel) false aa.recentlyAddedServers h₁ with
        | error f =>
          rw [hask.of_error hx₂]
          rfl
        | ok h₂ =>
          obtain ⟨hs₂, hg₂⟩ := hask.returns h₂ hx₂
          have hon₂ : ∀ c ∈ C, h₂.On c := fun c hc => hg₂ c (hg₁ c (hon c hc))
          have hend := ask_eq_endless (fun new hnew => hgoes new (hdead new hnew)) hmem hs₂
            (hon₂ b hb) fun h' hs' hg' => request_eq_endless hnames hrange hCA hC fuel hb hs'
              fun c hc => hg' c (hon₂ c hc)
          rw [Call.ok_bind, hend]
          rfl

/-- The servers on a way round through `a`. -/
theorem exists_accused {a b : Bytes} (hab : Relation.TransGen net.Accuses a b)
    (hba : Relation.TransGen net.Accuses b a) :
    ∃ c, net.Accuses b c ∧ Relation.TransGen net.Accuses a c
      ∧ Relation.TransGen net.Accuses c a := by
  obtain ⟨c, hbc, hca⟩ := Relation.TransGen.head'_iff.mp hba
  exact ⟨c, hbc, hab.tail hbc, Relation.TransGen.trans_right hca (hab.trans hba)⟩

theorem mem_of_transGen (hnames : net.Names A) {a b : Bytes} (ha : a ∈ A)
    (hab : Relation.TransGen net.Accuses a b) : b ∈ A := by
  induction hab with
  | single hab =>
    obtain ⟨-, -, ⟨aa, hreply, hmem⟩, -⟩ := hab
    exact (hnames a ha aa hreply).2 _ hmem
  | tail _ hbc ih =>
    obtain ⟨-, -, ⟨aa, hreply, hmem⟩, -⟩ := hbc
    exact (hnames _ ih aa hreply).2 _ hmem

/-- A sound group with given servers on it. -/
theorem exists_group (n : ℕ) (A : Finset Bytes) :
    ∃ sg : ServerGroup, sg.Sound n ∧ ∀ a ∈ A, sg.isServerOnGroup (address a) = true := by
  induction A using Finset.induction_on with
  | empty => exact ⟨_, .create n, by simp⟩
  | insert a A _ ih =>
    obtain ⟨sg, hs, hon⟩ := ih
    obtain ⟨e, sg', hadd, hs'⟩ := hs.exists_addServerToGroup (address a)
    have hiff := (sg.stops_addServerToGroup (address a)).returns _ hadd
    refine ⟨sg', hs', fun b hb => (hiff _).mpr ?_⟩
    rcases Finset.mem_insert.mp hb with rfl | hb
    · exact Or.inl rfl
    · exact Or.inr (hon b hb)

/-- **When gossip requests end**: whatever the group, every request of a server of `A` ends if there
is no round of accusations among them; and if the servers report chunks of the group, only then. -/
theorem requests_end_iff (net : Net) {A : Finset Bytes} (hnames : net.Names A) :
    (net.Acyclic A → ∀ a ∈ A, ∀ h, net.Ends a h)
    ∧ ∀ n, net.InRange A n → (∀ a ∈ A, ∀ h : Gossiper, h.sg.Sound n → net.Ends a h) →
      net.Acyclic A := by
  refine ⟨fun hacyclic a ha h => ends_of_acyclic hnames hacyclic _ _ ha le_rfl le_rfl, ?_⟩
  intro n hrange hends a ha haa
  obtain ⟨sg, hs, hon⟩ := exists_group n A
  obtain ⟨fuel, hfuel⟩ := hends a ha ⟨sg, fun _ => 0, ⟨[], []⟩, 0⟩ hs
  let C : Set Bytes := {b | Relation.TransGen net.Accuses a b ∧ Relation.TransGen net.Accuses b a}
  have hCA : ∀ b ∈ C, b ∈ A := fun b hb => mem_of_transGen hnames ha hb.1
  refine hfuel (request_eq_endless hnames hrange hCA (fun b hb => ?_) fuel
    (show a ∈ C from ⟨haa, haa⟩) hs fun c hc => hon c (hCA c hc))
  obtain ⟨c, hbc, hc⟩ := exists_accused hb.1 hb.2
  exact ⟨c, hc, hbc⟩

/-- Three servers that answer: `[1]` has heard of `[2]`, and says that `[3]` is dead, which says
that `[2]` is. -/
def rumours : Net :=
  ⟨fun addr => if addr = [1] then some ⟨[⟨0, 7⟩], [[2]], [[3]]⟩
    else if addr = [2] then some ⟨[⟨1, 7⟩], [], []⟩
    else if addr = [3] then some ⟨[], [], [[2]]⟩ else none, [0], fun _ => 0⟩

/-- The heartbeater of a group that has `[3]` on it. -/
def acquainted : Call Gossiper :=
  (fun p => ⟨p.2, fun _ => 0, ⟨[], []⟩, 0⟩)
    <$> (ServerGroup.create 2).addServerToGroup (address [3])

theorem rumours_reply {a : Bytes} {aa : AmAlive} (h : rumours.reply a = some aa) :
    (a = [1] ∧ aa = ⟨[⟨0, 7⟩], [[2]], [[3]]⟩) ∨ (a = [2] ∧ aa = ⟨[⟨1, 7⟩], [], []⟩)
      ∨ (a = [3] ∧ aa = ⟨[], [], [[2]]⟩) := by
  dsimp only [rumours] at h
  split at h
  · next ha => exact Or.inl ⟨ha, (Option.some.inj h).symm⟩
  split at h
  · next ha => exact Or.inr (Or.inl ⟨ha, (Option.some.inj h).symm⟩)
  split at h
  · next ha => exact Or.inr (Or.inr ⟨ha, (Option.some.inj h).symm⟩)
  · cases h

theorem rumours_names : rumours.Names {[1], [2], [3]} := fun a _ aa h => by
  rcases rumours_reply h with ⟨-, rfl⟩ | ⟨-, rfl⟩ | ⟨-, rfl⟩ <;> decide

theorem rumours_acyclic : rumours.Acyclic {[1], [2], [3]} := by
  -- `[1]` accuses `[3]`, and that `[2]`
  let rank : Bytes → ℕ := fun a => if a = [1] then 2 else if a = [3] then 1 else 0
  have hrank : ∀ {a b}, rumours.Accuses a b → rank b < rank a := fun {a b} h => by
    obtain ⟨-, -, ⟨aa, hreply, hb⟩, -⟩ := h
    rcases rumours_reply hreply with ⟨rfl, rfl⟩ | ⟨rfl, rfl⟩ | ⟨rfl, rfl⟩
    · rw [List.mem_singleton.mp hb]
      decide
    · cases hb
    · rw [List.mem_singleton.mp hb]
      decide
  have hall : ∀ {a b}, Relation.TransGen rumours.Accuses a b → rank b < rank a := fun h => by
    induction h with
    | single h => exact hrank h
    | tail _ h ih => exact (hrank h).trans ih
  exact fun a _ haa => lt_irrefl _ (hall haa)

/-- A request that leads to a server which is new, and along the accusations to `[2]` once more. -/
theorem requests_end_rumours : ∃ h, acquainted = .ok h ∧ h.On [3] ∧ ¬ h.On [2]
    ∧ rumours.request 2 [1] h = .error .endless
    ∧ (∃ h', rumours.request 3 [1] h = .ok (true, h') ∧ h'.On [2]) ∧ rumours.Ends [1] h := by
  have hobs : acquainted.map (fun h => (decide (h.On [3]), decide (h.On [2]),
      (rumours.request 2 [1] h).map Prod.fst,
      (rumours.request 3 [1] h).map fun p => (p.1, decide (p.2.On [2]))))
      = .ok (true, false, .error .endless, .ok (true, true)) := by decide +kernel
  obtain ⟨h, hh, hobs⟩ := Call.map_eq_ok.mp hobs
  obtain ⟨h3, h2, hcut, hreq⟩ : decide (h.On [3]) = true ∧ decide (h.On [2]) = false
      ∧ (rumours.request 2 [1] h).map Prod.fst = .error .endless
      ∧ (rumours.request 3 [1] h).map (fun p => (p.1, decide (p.2.On [2])))
        = .ok (true, true) := by simpa only [Prod.mk.injEq] using hobs
  obtain ⟨⟨b, h'⟩, hreq, hb⟩ := Call.map_eq_ok.mp hreq
  obtain ⟨rfl, hon⟩ := Prod.mk.inj hb
  refine ⟨h, hh, of_decide_eq_true h3, of_decide_eq_false h2, ?_,
    ⟨h', hreq, of_decide_eq_true hon⟩,
    (requests_end_iff rumours rumours_names).1 rumours_acyclic [1] (by decide) h⟩
  cases hx : rumours.request 2 [1] h with
  | ok p =>
    rw [hx] at hcut
    cases hcut
  | error f =>
    rw [hx] at hcut
    cases hcut
    rfl

/-- Two servers that answer, and each of which says that the other is dead. -/
def feud : Net :=
  ⟨fun addr => if addr = [1] then some ⟨[], [], [[2]]⟩
    else if addr = [2] then some ⟨[], [], [[1]]⟩ else none, [0], fun _ => 0⟩

/-- **A request that never ends**, on a group that has both servers. -/
theorem feud_never_ends : ∃ h : Gossiper, feud.Names {[1], [2]} ∧ h.sg.Sound 1 ∧ h.On [1] ∧ h.On [2]
    ∧ ∀ fuel, feud.request fuel [1] h = .error .endless := by
  have hreply : ∀ a ∈ ({[1], [2]} : Finset Bytes), ∃ b ∈ ({[1], [2]} : Finset Bytes),
      feud.reply a = some ⟨[], [], [b]⟩ := by decide
  have hnames : feud.Names {[1], [2]} := fun a ha aa h => by
    obtain ⟨b, hb, hab⟩ := hreply a ha
    obtain rfl := Option.some.inj (hab.symm.trans h)
    exact ⟨by simp, by simpa using hb⟩
  have hrange : feud.InRange {[1], [2]} 1 := fun a ha aa h => by
    obtain ⟨b, -, hab⟩ := hreply a ha
    obtain rfl := Option.some.inj (hab.symm.trans h)
    exact fun c hc => absurd hc List.not_mem_nil
  obtain ⟨sg, hs, hon⟩ := exists_group 1 {[1], [2]}
  refine ⟨⟨sg, fun _ => 0, ⟨[], []⟩, 0⟩, hnames, hs, hon [1] (by simp), hon [2] (by simp),
    fun fuel => ?_⟩
  refine request_eq_endless (C := {[1], [2]}) hnames hrange (by simp) ?_ fuel (by simp) hs
    fun c hc => hon c (by simpa using hc)
  rintro a (rfl | rfl)
  · exact ⟨[2], by simp, by decide, by decide, ⟨_, rfl, by simp⟩, by decide⟩
  · exact ⟨[1], by simp, by decide, by decide, ⟨_, rfl, by simp⟩, by decide⟩

end Net

end Treeless
