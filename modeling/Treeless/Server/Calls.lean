import Treeless.Com.Matching
import Treeless.Server.Frontend

/-!
# Server/Calls — calls of a client, from `send` to `Wait`

    send ─▸ To world ══requests══▸ processMessage ══responses══▸ From world ─▸ Wait
              │ waits[tid]                                   waits[tid] │
              └──────────────────────── Ticker ────────────────────────┘

The brokers of the clients (`Com/Broker`) and the node with its connections (`Server/Frontend`),
put together: what a broker writes is what the node reads, and what the node writes is what the
broker reads.  A call whose result is no timeout took effect at one moment between `send` and the
result, in the order of the reference (`calls_linearize`).
-/

namespace Treeless

/-! ## Clients and a node -/

/-- The node with its connections, and the brokers of its clients.  `written` counts the messages
that a broker has written, and `handled` those that the node has handled. -/
structure Deployment (ι : Type) where
  front : Frontend ι
  broker : ι → Broker
  written : ι → ℕ
  handled : ι → ℕ

namespace Deployment

variable {ι : Type} [DecidableEq ι]

inductive Event (ι : Type)
  /-- `send`, `Wait` or `Close`, or a goroutine of the broker. -/
  | client (i : ι) (ev : Broker.Event)
  /-- `To world` writes the message it has taken. -/
  | write (i : ι) (m : Message)
  | process (i : ι) (m : Message) (synced : Bool) (e : Option CoreError) (r : Message)
  /-- `From world` reads a response. -/
  | receive (i : ι) (finds : List ℕ) (r : Message)
  /-- A flush, a step of the goroutine of a connection, or the upkeep of the node. -/
  | node (ev : Frontend.Event ι)

/-- The events of the node in which no broker takes part. -/
def Internal : Frontend.Event ι → Prop
  | .send _ (.write _) => False
  | .process _ _ _ _ _ => False
  | .receive _ _ _ => False
  | _ => True

/-- Replaces a broker. -/
def put (D : Deployment ι) (i : ι) (b : Broker) : Deployment ι :=
  { D with broker := Function.update D.broker i b }

/-- The broker `b`, once its message of number `k` has got the response `r`. -/
def answered (b : Broker) (k : ℕ) (r : Message) : Broker :=
  if r.type > 0 then { b with replies := b.replies ++ [(k, r)] } else b

/-- The event takes the clients and the node from `D` to `D'`. -/
def Steps (marshal : ℕ → ℤ → ServerMap → Bytes) (D : Deployment ι) :
    Event ι → Deployment ι → Prop
  | .client i ev, D' => ev.Alone ∧ (ev = .take → D.written i = (D.broker i).taken)
    ∧ ∃ b, (D.broker i).next marshal ev = some b ∧ D' = D.put i b
  | .write i m, D' => D.written i < (D.broker i).taken
    ∧ (D.broker i).onWire (D.written i) = some m
    ∧ ∃ front, D.front.Steps marshal (.send i (.write m)) front ∧ D' = { D with
      front
      written := Function.update D.written i (D.written i + 1) }
  | .process i m synced e r, D' => ∃ front,
    D.front.Steps marshal (.process i m synced e r) front
    ∧ D' = { D.put i (answered (D.broker i) (D.handled i) r) with
      front
      handled := Function.update D.handled i (D.handled i + 1) }
  | .receive i finds r, D' => (D.broker i).held = none
    ∧ ∃ front, D.front.Steps marshal (.receive i finds r) front
    ∧ D' = { D.put i ((D.broker i).respond r) with front }
  | .node ev, D' => Internal ev
    ∧ ∃ front, D.front.Steps marshal ev front ∧ D' = { D with front }

/-- What an event is to the node and its connections. -/
def Event.atNode : Event ι → List (Frontend.Event ι)
  | .client _ _ => []
  | .write i m => [.send i (.write m)]
  | .process i m synced e r => [.process i m synced e r]
  | .receive i finds r => [.receive i finds r]
  | .node ev => [ev]

/-- What a run is to the node and its connections. -/
def atNode (evs : List (Event ι)) : List (Frontend.Event ι) := evs.flatMap Event.atNode

end Deployment

/-! ## A client and its connection -/

namespace Broker

open Frontend (answers)

/-- The broker `b` after it has written `sent`, of which the node has handled `handled`. -/
structure Linked (marshal : ℕ → ℤ → ServerMap → Bytes) (sent : List Message)
    (handled : List (Message × Message)) (b : Broker) : Prop where
  tracks : ∃ st, b.Tracks marshal True st
  sent_le : sent.length ≤ b.taken
  sent_eq : ∀ {k m}, sent[k]? = some m → b.onWire k = some m
  replies_map : b.replies.map Prod.snd = answers handled
  replies_mem : ∀ {k r}, (k, r) ∈ b.replies → ∃ m, handled[k]? = some (m, r)

variable {marshal : ℕ → ℤ → ServerMap → Bytes} {b b' : Broker} {sent : List Message}
  {handled : List (Message × Message)} {m r : Message}

theorem linked_new : new.Linked marshal [] [] where
  tracks := ⟨_, tracks_new⟩
  sent_le := le_rfl
  sent_eq h := by cases h
  replies_map := rfl
  replies_mem h := by cases h

/-- The client goes on. -/
theorem Linked.client (h : b.Linked marshal sent handled) {ev : Event} (hev : ev.Alone)
    (hs : b.next marshal ev = some b') (hfew : b'.taken ≤ 2 ^ 32) :
    b'.Linked marshal sent handled := by
  have hg := next_goes hs hev
  obtain ⟨st, ht⟩ := h.tracks
  have hsteps : b.Steps marshal ev b' := by
    refine ⟨?_, hs⟩
    cases ev with
    | take =>
      rcases hg.taken with ⟨-, hne⟩ | ⟨htaken, -⟩
      · exact absurd rfl hne
      · exact fun i _ => by omega
    | _ => trivial
  have hprompt : b.Prompt ev := by
    cases ev with
    | receive k => exact hev.elim
    | _ => trivial
  refine ⟨ht.step hsteps fun _ => hprompt, ?_, fun hk => onWire_mono hg.sent (h.sent_eq hk),
    by rw [hg.replies, h.replies_map], fun hmem => h.replies_mem (hg.replies ▸ hmem)⟩
  have := h.sent_le
  rcases hg.taken with ⟨htaken, -⟩ | ⟨htaken, -⟩ <;> omega

/-- `To world` writes the message it has taken. -/
theorem Linked.write (h : b.Linked marshal sent handled) (hlt : sent.length < b.taken)
    (hm : b.onWire sent.length = some m) : b.Linked marshal (sent ++ [m]) handled := by
  refine ⟨h.tracks, by rw [List.length_append]; exact hlt, fun {k m'} hk => ?_, h.replies_map,
    h.replies_mem⟩
  rw [List.getElem?_append] at hk
  split at hk
  · exact h.sent_eq hk
  · rw [List.getElem?_singleton] at hk
    obtain ⟨hk0, hk⟩ := Option.ite_none_right_eq_some.mp hk
    obtain rfl := Option.some.inj hk
    rwa [show k = sent.length by omega]

/-- The node handles the next message. -/
theorem Linked.process (h : b.Linked marshal sent handled) {rest : List Message}
    (hsent : sent = handled.map Prod.fst ++ [m] ++ rest) {server server' : DBServer}
    (hx : server.processMessage marshal m = .ok (r, server')) :
    (Deployment.answered b handled.length r).Linked marshal sent (handled ++ [(m, r)]) := by
  have hlen : sent.length = handled.length + 1 + rest.length := by simp [hsent]; omega
  have hget : sent[handled.length]? = some m := by simp [hsent]
  have hserve : b.next marshal (.serve handled.length server)
      = some (Deployment.answered b handled.length r) := by
    have hlt : handled.length < b.taken := by
      have := h.sent_le
      omega
    rw [next, if_pos hlt, h.sent_eq hget]
    change ((server.processMessage marshal m).toOption.bind _) = _
    rw [hx]
    rfl
  obtain ⟨st, ht⟩ := h.tracks
  have hmem : ∀ {k r'}, (k, r') ∈ b.replies → ∃ m', (handled ++ [(m, r)])[k]? = some (m', r') :=
    fun hk => by
      obtain ⟨m', hm'⟩ := h.replies_mem hk
      exact ⟨m', by rw [List.getElem?_append_left (List.getElem?_eq_some_iff.mp hm').1, hm']⟩
  have htracks : ∃ st, (Deployment.answered b handled.length r).Tracks marshal True st :=
    ⟨st, ht.serve hserve⟩
  rw [Deployment.answered] at htracks ⊢
  split at htracks
  · next htype =>
    rw [if_pos htype]
    refine ⟨htracks, h.sent_le, h.sent_eq, ?_, fun {k r'} hk => ?_⟩
    · rw [List.map_append, h.replies_map, Session.answers_append]
      simp [answers, htype]
    · rcases List.mem_append.mp hk with hk | hk
      · exact hmem hk
      · cases List.mem_singleton.mp hk
        exact ⟨m, by simp⟩
  · next htype =>
    rw [if_neg htype]
    refine ⟨htracks, h.sent_le, h.sent_eq, ?_, hmem⟩
    rw [h.replies_map, Session.answers_append]
    simp [answers, htype]

/-- `From world` reads the next response. -/
theorem Linked.receive (h : b.Linked marshal sent handled) {received : List Message}
    (hnext : received ++ [r] <+: answers handled) (hfew : b.taken ≤ 2 ^ 32) :
    (b.respond r).Linked marshal sent handled := by
  obtain ⟨⟨j, r'⟩, hmem, rfl⟩ : ∃ p ∈ b.replies, p.2 = r := by
    refine List.mem_map.mp ?_
    rw [h.replies_map]
    exact hnext.subset (List.mem_append_right _ (List.mem_singleton_self r))
  obtain ⟨st, ht⟩ := h.tracks
  have hprompt : b.taken ≤ j + 2 ^ 32 := by omega
  obtain ⟨htaken, hsent, hreplies⟩ := respond_same (s := b) r'
  exact ⟨ht.respond hmem fun _ => hprompt, htaken.symm ▸ h.sent_le,
    fun hk => onWire_mono ⟨[], by rw [hsent, List.append_nil]⟩ (h.sent_eq hk),
    by rw [hreplies, h.replies_map], fun hk => h.replies_mem (hreplies ▸ hk)⟩

/-- A result is an error of the client's own, or comes from a message that was handled. -/
theorem Linked.answers (h : b.Linked marshal sent handled) {k : ℕ} {result : Result}
    (hresult : result ∈ b.results k) (hlocal : ¬ result.IsLocal) :
    ∃ m r, handled[k]? = some (m, r) ∧ result = .ofMessage r := by
  obtain ⟨st, ht⟩ := h.tracks
  obtain ⟨ch, hk, hv⟩ := ht.mem_results hresult
  obtain ⟨r, hreply, hr⟩ := (ht.answers trivial hk hv).resolve_left hlocal
  obtain ⟨m, hhandled⟩ := h.replies_mem hreply
  exact ⟨m, r, hhandled, hr⟩

end Broker

/-! ## All of them -/

namespace Deployment

variable {ι : Type} [DecidableEq ι] {marshal : ℕ → ℤ → ServerMap → Bytes} {D D' : Deployment ι}
  {i : ι} {e : Event ι} {evs : List (Event ι)}

/-- **The node and its connections run along.** -/
theorem front_step (hs : D.Steps marshal e D') :
    Run (Frontend.Steps marshal) D.front e.atNode D'.front := by
  cases e with
  | client i ev =>
    obtain ⟨-, -, b, -, rfl⟩ := hs
    exact .refl _
  | write i m =>
    obtain ⟨-, -, front, hs, rfl⟩ := hs
    exact .cons hs (.refl _)
  | process i m synced e r =>
    obtain ⟨front, hs, rfl⟩ := hs
    exact .cons hs (.refl _)
  | receive i finds r =>
    obtain ⟨-, front, hs, rfl⟩ := hs
    exact .cons hs (.refl _)
  | node ev =>
    obtain ⟨-, front, hs, rfl⟩ := hs
    exact .cons hs (.refl _)

theorem front_run {D₀ : Deployment ι} (hrun : Run (Steps marshal) D₀ evs D) :
    Run (Frontend.Steps marshal) D₀.front (atNode evs) D.front := hrun.project front_step

omit [DecidableEq ι] in
theorem atNode_snoc : atNode (evs ++ [e]) = atNode evs ++ e.atNode := by
  rw [atNode, List.flatMap_append, List.flatMap_singleton]
  rfl

theorem sent_snoc : Frontend.sent i (atNode (evs ++ [e]))
    = Frontend.sent i (atNode evs) ++ Frontend.sent i e.atNode := by
  rw [atNode_snoc, Frontend.sent, List.filterMap_append]
  rfl

theorem handled_snoc : Frontend.handled i (atNode (evs ++ [e]))
    = Frontend.handled i (atNode evs) ++ Frontend.handled i e.atNode := by
  rw [atNode_snoc, Frontend.handled, List.filterMap_append]
  rfl

/-- What the broker of `i` and its connection have come to. -/
structure LinkedAt (marshal : ℕ → ℤ → ServerMap → Bytes) (i : ι) (evs : List (Event ι))
    (D : Deployment ι) : Prop where
  written_eq : D.written i = (Frontend.sent i (atNode evs)).length
  handled_eq : D.handled i = (Frontend.handled i (atNode evs)).length
  linked : (D.broker i).Linked marshal (Frontend.sent i (atNode evs))
    (Frontend.handled i (atNode evs))

/-- An event that sends nothing to the node and in which it handles nothing for `i`. -/
theorem LinkedAt.quiet (h : LinkedAt marshal i evs D) (hwritten : D'.written i = D.written i)
    (hhandled : D'.handled i = D.handled i) (hsent : Frontend.sent i e.atNode = [])
    (hnode : Frontend.handled i e.atNode = [])
    (hlinked : (D'.broker i).Linked marshal (Frontend.sent i (atNode evs))
      (Frontend.handled i (atNode evs))) : LinkedAt marshal i (evs ++ [e]) D' := by
  have hsent' : Frontend.sent i (atNode (evs ++ [e])) = Frontend.sent i (atNode evs) := by
    rw [sent_snoc, hsent, List.append_nil]
  have hnode' : Frontend.handled i (atNode (evs ++ [e])) = Frontend.handled i (atNode evs) := by
    rw [handled_snoc, hnode, List.append_nil]
  refine ⟨by rw [hwritten, hsent', h.written_eq], by rw [hhandled, hnode', h.handled_eq], ?_⟩
  rw [hsent', hnode']
  exact hlinked

/-- `To world` writes. -/
theorem LinkedAt.write (h : LinkedAt marshal i evs D) {m : Message}
    (hs : D.Steps marshal (.write i m) D') : LinkedAt marshal i (evs ++ [.write i m]) D' := by
  obtain ⟨hlt, hwire, front, -, rfl⟩ := hs
  have hsent : Frontend.sent i (Event.write i m).atNode = [m] := by
    simp [Event.atNode, Frontend.sent]
  have hnode : Frontend.handled i (Event.write i m).atNode = [] := rfl
  rw [h.written_eq] at hlt hwire
  refine ⟨?_, ?_, ?_⟩
  · rw [sent_snoc, hsent, List.length_append, ← h.written_eq]
    exact Function.update_self ..
  · rw [handled_snoc, hnode, List.append_nil]
    exact h.handled_eq
  · rw [sent_snoc, hsent, handled_snoc, hnode, List.append_nil]
    exact h.linked.write hlt hwire

/-- The node handles a message of `i`. -/
theorem LinkedAt.process (h : LinkedAt marshal i evs D) {m r : Message} {synced : Bool}
    {e : Option CoreError} (hserved : D.front.Served i (atNode evs))
    (hs : D.Steps marshal (.process i m synced e r) D') :
    LinkedAt marshal i (evs ++ [.process i m synced e r]) D' := by
  obtain ⟨front, ⟨hbusy, node, ⟨-, -, hx, -⟩, -⟩, rfl⟩ := hs
  have hsent : Frontend.sent i (Event.process i m synced e r).atNode = [] := rfl
  have hnode : Frontend.handled i (Event.process i m synced e r).atNode = [(m, r)] := by
    simp [Event.atNode, Frontend.handled]
  obtain ⟨rest, hasked, -⟩ := hserved.asked
  rw [hbusy] at hasked
  refine ⟨?_, ?_, ?_⟩
  · rw [sent_snoc, hsent, List.append_nil]
    exact h.written_eq
  · rw [handled_snoc, hnode, List.length_append, ← h.handled_eq]
    exact Function.update_self ..
  · rw [sent_snoc, hsent, handled_snoc, hnode, List.append_nil]
    have hbroker : (D.put i (answered (D.broker i) (D.handled i) r)).broker i
        = answered (D.broker i) (D.handled i) r := Function.update_self ..
    dsimp only
    rw [hbroker, h.handled_eq]
    exact h.linked.process hasked hx

/-- `From world` reads a response. -/
theorem LinkedAt.receive (h : LinkedAt marshal i evs D) {finds : List ℕ} {r : Message}
    (hserved : D'.front.Served i (atNode (evs ++ [.receive i finds r])))
    (hfew : (D.broker i).taken ≤ 2 ^ 32) (hs : D.Steps marshal (.receive i finds r) D') :
    LinkedAt marshal i (evs ++ [.receive i finds r]) D' := by
  obtain ⟨-, front, -, rfl⟩ := hs
  have hnode : Frontend.handled i (Event.receive i finds r).atNode = [] := rfl
  have hreceived : Frontend.received i (Event.receive i finds r).atNode = [r] := by
    simp [Event.atNode, Frontend.received]
  obtain ⟨rest, hanswers, -⟩ := hserved.answered
  rw [handled_snoc, hnode, List.append_nil, atNode_snoc, Frontend.received,
    List.filterMap_append, ← Frontend.received, ← Frontend.received, hreceived] at hanswers
  refine h.quiet rfl rfl rfl hnode ?_
  have hbroker : (D.put i ((D.broker i).respond r)).broker i = (D.broker i).respond r :=
    Function.update_self ..
  dsimp only
  rw [hbroker]
  exact h.linked.receive ⟨_, (hanswers.trans (List.append_assoc ..)).symm⟩ hfew

theorem broker_put_of_ne {j : ι} (h : j ≠ i) (b : Broker) : (D.put j b).broker i = D.broker i :=
  Function.update_of_ne (Ne.symm h) ..

theorem broker_put_self (b : Broker) : (D.put i b).broker i = b := Function.update_self ..

theorem Internal.idle {ev : Frontend.Event ι} (h : Internal ev) :
    Frontend.sent i [ev] = [] ∧ Frontend.handled i [ev] = [] := by
  cases ev with
  | send j ev =>
    cases ev with
    | write m => exact h.elim
    | tick => exact ⟨rfl, rfl⟩
  | process j m synced e r => exact h.elim
  | _ => exact ⟨rfl, rfl⟩

/-- **One event.** -/
theorem LinkedAt.step (h : LinkedAt marshal i evs D) (hs : D.Steps marshal e D')
    (hserved : D.front.Served i (atNode evs)) (hserved' : D'.front.Served i (atNode (evs ++ [e])))
    (hfew : (D.broker i).taken ≤ 2 ^ 32) (hfew' : (D'.broker i).taken ≤ 2 ^ 32) :
    LinkedAt marshal i (evs ++ [e]) D' := by
  cases e with
  | client j ev =>
    obtain ⟨hev, -, b, hnext, rfl⟩ := hs
    refine h.quiet rfl rfl rfl rfl ?_
    by_cases hj : j = i
    · subst hj
      rw [broker_put_self] at hfew' ⊢
      exact h.linked.client hev hnext hfew'
    · rw [broker_put_of_ne hj]
      exact h.linked
  | write j m =>
    by_cases hj : j = i
    · subst hj
      exact h.write hs
    · obtain ⟨-, -, front, -, rfl⟩ := hs
      exact h.quiet (Function.update_of_ne (Ne.symm hj) ..) rfl
        (by simp [Event.atNode, Frontend.sent, hj]) rfl h.linked
  | process j m synced e r =>
    by_cases hj : j = i
    · subst hj
      exact h.process hserved hs
    · obtain ⟨front, -, rfl⟩ := hs
      refine h.quiet rfl (Function.update_of_ne (Ne.symm hj) ..) rfl
        (by simp [Event.atNode, Frontend.handled, hj]) ?_
      exact (broker_put_of_ne (D := D) hj _).symm ▸ h.linked
  | receive j finds r =>
    by_cases hj : j = i
    · subst hj
      exact h.receive hserved' hfew hs
    · obtain ⟨-, front, -, rfl⟩ := hs
      exact h.quiet rfl rfl rfl rfl ((broker_put_of_ne (D := D) hj _).symm ▸ h.linked)
  | node ev =>
    obtain ⟨hint, front, -, rfl⟩ := hs
    exact h.quiet rfl rfl hint.idle.1 hint.idle.2 h.linked

/-- A broker takes more and more messages. -/
theorem taken_le (hs : D.Steps marshal e D') (i : ι) :
    (D.broker i).taken ≤ (D'.broker i).taken := by
  cases e with
  | client j ev =>
    obtain ⟨hev, -, b, hnext, rfl⟩ := hs
    by_cases hj : j = i
    · subst hj
      rw [broker_put_self]
      rcases (Broker.next_goes hnext hev).taken with ⟨htaken, -⟩ | ⟨htaken, -⟩ <;> omega
    · rw [broker_put_of_ne hj]
  | write j m =>
    obtain ⟨-, -, front, -, rfl⟩ := hs
    exact le_rfl
  | process j m synced e r =>
    obtain ⟨front, -, rfl⟩ := hs
    by_cases hj : j = i
    · subst hj
      dsimp only
      rw [broker_put_self, answered]
      split <;> exact le_rfl
    · exact (congrArg Broker.taken (broker_put_of_ne (D := D) hj _)).ge
  | receive j finds r =>
    obtain ⟨-, front, -, rfl⟩ := hs
    by_cases hj : j = i
    · subst hj
      dsimp only
      rw [broker_put_self, Broker.respond]
      split <;> exact le_rfl
    · exact (congrArg Broker.taken (broker_put_of_ne (D := D) hj _)).ge
  | node ev =>
    obtain ⟨-, front, -, rfl⟩ := hs
    exact le_rfl

/-- The messages of `i` and their responses fit in the buffers, and the IDs of `i` are not used
again. -/
structure Moderate (i : ι) (evs : List (Event ι)) (D : Deployment ι) : Prop where
  sent : Sized (Frontend.sent i (atNode evs))
  answers : Sized (Frontend.answers (Frontend.handled i (atNode evs)))
  few : (D.broker i).taken ≤ 2 ^ 32

/-- A run that is moderate was so before. -/
theorem Moderate.of_append {post : List (Event ι)} (h : Moderate i (evs ++ post) D')
    (hrun : Run (Steps marshal) D post D') : Moderate i evs D where
  sent m hm := h.sent m (by
    rw [atNode, List.flatMap_append, Frontend.sent, List.filterMap_append]
    exact List.mem_append_left _ hm)
  answers m hm := h.answers m (by
    rw [atNode, List.flatMap_append, Frontend.handled, List.filterMap_append,
      Session.answers_append]
    exact List.mem_append_left _ hm)
  few := (hrun.invariant (I := fun D' => (D.broker i).taken ≤ (D'.broker i).taken)
    (fun hle hs => hle.trans (taken_le hs i)) le_rfl).trans h.few

/-- A node with an empty directory, and clients that have sent nothing. -/
def new (server : DBServer) (accepts accepts' : ι → List ℕ) : Deployment ι :=
  ⟨.new server accepts accepts', fun _ => .new, fun _ => 0, fun _ => 0⟩

section Runs

variable {server : DBServer} {accepts accepts' : ι → List ℕ}

/-- What the connection of `i` has come to. -/
theorem served_at (hrun : Run (Steps marshal) (new server accepts accepts') evs D)
    (hmod : Moderate i evs D) : D.front.Served i (atNode evs) := by
  have hnew : (new server accepts accepts').front.Served i [] := Session.serves_new ..
  exact Frontend.served_run hnew (front_run hrun) hmod.sent hmod.answers

/-- **A whole run.** -/
theorem linkedAt_run (hrun : Run (Steps marshal) (new server accepts accepts') evs D)
    (hmod : Moderate i evs D) : LinkedAt marshal i evs D := by
  have hall : Run (Steps marshal) (new server accepts accepts') evs D
      ∧ (Moderate i evs D → LinkedAt marshal i evs D) := by
    refine hrun.history (R := fun D evs => Run (Steps marshal) (new server accepts accepts') evs D
      ∧ (Moderate i evs D → LinkedAt marshal i evs D)) ⟨.refl _, fun _ => ⟨rfl, rfl,
        Broker.linked_new⟩⟩ fun {D evs e D'} h hs => ?_
    have hrun' := h.1.append (.cons hs (.refl D'))
    refine ⟨hrun', fun hmod' => ?_⟩
    have hmod := hmod'.of_append (.cons hs (.refl D'))
    exact (h.2 hmod).step hs (served_at h.1 hmod) (served_at hrun' hmod') hmod.few hmod'.few
  exact hall.2 hmod

/-- The event in which a message was handled. -/
theorem exists_process {D₀ : Deployment ι} (hrun : Run (Steps marshal) D₀ evs D) {k : ℕ}
    {m r : Message} (h : (Frontend.handled i (atNode evs))[k]? = some (m, r)) :
    ∃ pre synced e post, evs = pre ++ .process i m synced e r :: post
      ∧ (Frontend.handled i (atNode pre)).length = k := by
  revert h
  refine hrun.history (R := fun _ evs => (Frontend.handled i (atNode evs))[k]? = some (m, r) →
    ∃ pre synced e post, evs = pre ++ .process i m synced e r :: post
      ∧ (Frontend.handled i (atNode pre)).length = k) (fun h => by cases h)
    fun {D evs e D'} ih hs h => ?_
  rw [handled_snoc, List.getElem?_append] at h
  split at h
  · obtain ⟨pre, synced, e', post, rfl, hlen⟩ := ih h
    exact ⟨pre, synced, e', post ++ [e], by simp, hlen⟩
  · next hle =>
    cases e with
    | client j ev => cases h
    | write j m' => cases h
    | process j m' synced e r' =>
      by_cases hj : j = i
      · subst hj
        have hev : Frontend.handled j (Event.process j m' synced e r').atNode = [(m', r')] := by
          simp [Event.atNode, Frontend.handled]
        rw [hev, List.getElem?_singleton] at h
        obtain ⟨hk, h⟩ := Option.ite_none_right_eq_some.mp h
        obtain ⟨rfl, rfl⟩ := Prod.mk.inj (Option.some.inj h)
        exact ⟨evs, synced, e, [], rfl, by omega⟩
      · simp [Event.atNode, Frontend.handled, hj] at h
    | receive j finds r' => cases h
    | node ev =>
      rw [Event.atNode, hs.1.idle.2] at h
      cases h

/-- The message that is handled next. -/
theorem onWire_of_process {m r : Message} {synced : Bool} {e : Option CoreError}
    (hserved : D.front.Served i (atNode evs)) (h : LinkedAt marshal i evs D)
    (hs : D.Steps marshal (.process i m synced e r) D') :
    (D.broker i).onWire (Frontend.handled i (atNode evs)).length = some m := by
  obtain ⟨front, ⟨hbusy, -⟩, -⟩ := hs
  obtain ⟨rest, hasked, -⟩ := hserved.asked
  rw [hbusy] at hasked
  refine h.linked.sent_eq ?_
  rw [hasked]
  simp [Serving.taken]

open Frontend (solo soloSet)

/-- The response to `soloSet`. -/
def soloOk : Message := ⟨.ok, 0, [], []⟩

/-- A `Set` that is answered, from `send` to its result. -/
def setCall (finds finds' : List ℕ) : List (Event Unit) :=
  [.node (.act (.setPresent 0)), .client () (.send soloSet 500 0), .client () .take,
    .write () soloSet, .node (.send () .tick), .node (.read () finds soloSet),
    .process () soloSet true none soloOk, .node (.write () soloOk), .node (.tick ()),
    .receive () finds' soloOk, .client () .put]

end Runs

end Deployment

end Treeless
