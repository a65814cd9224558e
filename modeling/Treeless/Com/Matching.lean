import Treeless.Com.Tracks
import Treeless.Machinery.Run

/-!
# Com/Matching — a result is the answer to its own request

Whatever the order of the events, the results of a request are those of its state (`Com/Tracks`), so
there is one at most, and a channel has no second request while the first is not over.  That the
result is the answer to the request itself needs one thing more: that the response is not so late
that its ID is in use again (`late_response_mismatch`).
-/

namespace Treeless

namespace Broker

variable {marshal : ℕ → ℤ → ServerMap → Bytes} {s : Broker} {P : Prop} {st : ℕ → Status}

/-! ## Runs -/

section

variable (marshal s)

/-- Fewer than `2^32` messages are sent while a request has no result. -/
def Brief : Event → Prop
  | .take => ∀ i, s.Pending i → s.taken < i + 2 ^ 32
  | _ => True

/-- A response arrives before `2^32` messages have been sent after its own. -/
def Prompt : Event → Prop
  | .receive k => ∀ p, s.replies[k]? = some p → s.taken ≤ p.1 + 2 ^ 32
  | _ => True

/-- An event in the life of a connection whose requests are brief. -/
def Steps (ev : Event) (s' : Broker) : Prop := s.Brief ev ∧ s.next marshal ev = some s'

/-- The same, if the responses are prompt. -/
def PromptSteps (ev : Event) (s' : Broker) : Prop := s.Prompt ev ∧ s.Steps marshal ev s'

end

/-- The events at the client alone: no message is exchanged with the server. -/
def Event.Alone : Event → Prop
  | .serve _ _ => False
  | .receive _ => False
  | _ => True

/-- What an event at the client does: it sends a message at most, makes no response, and takes one
message if it is `take`. -/
structure Goes (s : Broker) (ev : Event) (s' : Broker) : Prop where
  sent : ∃ rest, s'.sent = s.sent ++ rest
  replies : s'.replies = s.replies
  taken : s'.taken = s.taken ∧ ev ≠ .take ∨ s'.taken = s.taken + 1 ∧ ev = .take

/-- A response changes neither the messages nor the responses. -/
theorem respond_same (m : Message) : (s.respond m).taken = s.taken
    ∧ (s.respond m).sent = s.sent ∧ (s.respond m).replies = s.replies := by
  rw [respond]
  split <;> exact ⟨rfl, rfl, rfl⟩

theorem sent_self : ∃ rest, s.sent = s.sent ++ rest := ⟨[], (List.append_nil _).symm⟩

theorem goes_of_deliver {s' : Broker} {ev : Event} (hev : ev ≠ .take) {ch : ℕ} {r : Result}
    {w : UInt32 → Option ℕ} {p : Option (ℕ × Result)}
    (hs : Broker.deliver { s with waits := w, held := p } ch r = some s') : s.Goes ev s' := by
  rw [deliver] at hs
  split at hs
  · cases hs
  · cases hs
    exact ⟨sent_self, rfl, Or.inl ⟨rfl, hev⟩⟩

/-- **An event at the client.** -/
theorem next_goes {ev : Event} {s' : Broker} (hs : s.next marshal ev = some s')
    (hev : ev.Alone) : s.Goes ev s' := by
  cases ev with
  | send mess timeout ch =>
    rw [next] at hs
    obtain ⟨-, hs⟩ := Option.ite_none_left_eq_some.mp hs
    split at hs
    · cases hs
      exact ⟨⟨_, rfl⟩, rfl, Or.inl ⟨rfl, by simp⟩⟩
    · split at hs
      · cases hs
        exact ⟨⟨_, rfl⟩, rfl, Or.inl ⟨rfl, by simp⟩⟩
      · obtain ⟨-, hs⟩ := Option.ite_none_right_eq_some.mp hs
        cases hs
        exact ⟨⟨_, rfl⟩, rfl, Or.inl ⟨rfl, by simp⟩⟩
  | take =>
    obtain ⟨msg, -, hs⟩ := Option.bind_eq_some_iff.mp hs
    rw [register] at hs
    split at hs
    · obtain ⟨ch, -, rfl⟩ := Option.map_eq_some_iff.mp hs
      exact ⟨sent_self, rfl, Or.inr ⟨rfl, rfl⟩⟩
    · obtain ⟨-, hs⟩ := Option.ite_none_right_eq_some.mp hs
      cases hs
      exact ⟨sent_self, rfl, Or.inr ⟨rfl, rfl⟩⟩
  | serve i server => exact hev.elim
  | receive k => exact hev.elim
  | put =>
    obtain ⟨⟨ch, r⟩, -, hs⟩ := Option.bind_eq_some_iff.mp hs
    exact goes_of_deliver (w := s.waits) (by simp) hs
  | expire tid closing =>
    obtain ⟨-, hs⟩ := Option.ite_none_right_eq_some.mp hs
    obtain ⟨ch, -, hs⟩ := Option.bind_eq_some_iff.mp hs
    exact goes_of_deliver (by simp) hs
  | wait i back =>
    obtain ⟨-, hs⟩ := Option.ite_none_left_eq_some.mp hs
    obtain ⟨ch, -, hs⟩ := Option.bind_eq_some_iff.mp hs
    obtain ⟨r, -, hs⟩ := Option.bind_eq_some_iff.mp hs
    cases hs
    exact ⟨sent_self, rfl, Or.inl ⟨rfl, by simp⟩⟩
  | close =>
    obtain ⟨-, hs⟩ := Option.ite_none_left_eq_some.mp hs
    cases hs
    exact ⟨sent_self, rfl, Or.inl ⟨rfl, by simp⟩⟩

/-- The server made the response in an event of the run, to the message `i` as it was written. -/
def Served (marshal : ℕ → ℤ → ServerMap → Bytes) (s : Broker) (evs : List Event) (i : ℕ)
    (m : Message) : Prop :=
  ∃ message server server', s.onWire i = some message ∧ .serve i server ∈ evs
    ∧ server.processMessage marshal message = .ok (m, server')

/-- What the server has made stays made. -/
theorem Served.mono {evs : List Event} {ev : Event} {i : ℕ} {m : Message} {s' : Broker}
    (h : s.Served marshal evs i m) (hsent : ∃ rest, s'.sent = s.sent ++ rest) :
    s'.Served marshal (evs ++ [ev]) i m := by
  obtain ⟨message, server, server', hwire, hmem, hx⟩ := h
  exact ⟨message, server, server', onWire_mono hsent hwire, List.mem_append_left _ hmem, hx⟩

/-- **The responses are those that the server made.** -/
theorem served_of_run {evs : List Event} (hrun : Run (Steps marshal) new evs s) {i : ℕ}
    {m : Message} (h : (i, m) ∈ s.replies) : s.Served marshal evs i m := by
  have hall : ∀ p ∈ s.replies, s.Served marshal evs p.1 p.2 := by
    refine hrun.history (R := fun s evs => ∀ p ∈ s.replies, s.Served marshal evs p.1 p.2)
      (fun p hp => nomatch hp) fun {s evs ev s'} ih ⟨_, hs⟩ p hp => ?_
    cases ev with
    | serve j server =>
      obtain ⟨-, hs⟩ := Option.ite_none_right_eq_some.mp hs
      obtain ⟨message, hwire, hs⟩ := Option.bind_eq_some_iff.mp hs
      obtain ⟨⟨response, server'⟩, hx, hs⟩ := Option.bind_eq_some_iff.mp hs
      obtain rfl := Option.some.inj hs
      split at hp
      · next htype =>
        rw [if_pos htype]
        rcases List.mem_append.mp hp with hp | hp
        · exact (ih p hp).mono sent_self
        · cases List.mem_singleton.mp hp
          exact ⟨message, server, server', hwire, List.mem_append_right _ List.mem_cons_self,
            Call.eq_ok_of_toOption hx⟩
      · next htype =>
        rw [if_neg htype]
        exact (ih p hp).mono sent_self
    | receive k =>
      obtain ⟨-, hs⟩ := Option.ite_none_right_eq_some.mp hs
      obtain ⟨⟨j, r⟩, -, rfl⟩ := Option.map_eq_some_iff.mp hs
      obtain ⟨-, hsent, hreplies⟩ := respond_same (s := s) r
      exact (ih p (hreplies ▸ hp)).mono (by rw [hsent]; exact sent_self)
    | _ =>
      have hg := next_goes hs trivial
      exact (ih p (hg.replies ▸ hp)).mono hg.sent
  exact hall (i, m) h

/-- **One event.** -/
theorem Tracks.step (h : s.Tracks marshal P st) {ev : Event} {s' : Broker}
    (hs : s.Steps marshal ev s') (hprompt : P → s.Prompt ev) : ∃ st', s'.Tracks marshal P st' := by
  obtain ⟨hbrief, hs'⟩ := hs
  cases ev with
  | send mess timeout ch => exact h.send hs'
  | take =>
    obtain ⟨msg, hget, hs'⟩ := Option.bind_eq_some_iff.mp hs'
    exact h.register hget hbrief hs'
  | serve i server => exact ⟨st, h.serve hs'⟩
  | receive k =>
    obtain ⟨-, hs'⟩ := Option.ite_none_right_eq_some.mp hs'
    obtain ⟨⟨j, m⟩, hk, rfl⟩ := Option.map_eq_some_iff.mp hs'
    exact h.respond (List.mem_of_getElem? hk) fun hP => hprompt hP _ hk
  | put => exact h.put hs'
  | expire tid closing => exact h.expire hs'
  | wait i back => exact h.wait hs'
  | close =>
    obtain ⟨-, hs'⟩ := Option.ite_none_left_eq_some.mp hs'
    obtain rfl := Option.some.inj hs'
    exact ⟨st, { h with }⟩

/-- A pending request has a channel, and is not over. -/
theorem Tracks.of_pending (h : s.Tracks marshal P st) {i : ℕ} (hp : s.Pending i) :
    ∃ ch, s.rch i = some ch ∧ ¬ (st i).IsRead := by
  obtain ⟨ch, hch⟩ := Option.ne_none_iff_exists'.mp hp.1
  exact ⟨ch, hch, Status.not_isRead_of_results ((h.results hch).symm.trans hp.2)⟩

/-- The results of a message are those of its state, if it is a request. -/
theorem Tracks.mem_results (h : s.Tracks marshal P st) {i : ℕ} {r : Result} (hr : r ∈ s.results i) :
    ∃ ch, s.rch i = some ch ∧ (st i).value = some r := by
  cases hi : s.rch i with
  | none =>
    rw [h.results_none hi] at hr
    cases hr
  | some ch =>
    rw [h.results hi] at hr
    exact ⟨ch, rfl, Status.value_of_mem_results hr⟩

theorem Tracks.length_results_le (h : s.Tracks marshal P st) (i : ℕ) :
    (s.results i).length ≤ 1 := by
  cases hi : s.rch i with
  | none =>
    rw [h.results_none hi]
    exact Nat.zero_le 1
  | some ch =>
    rw [h.results hi]
    exact (st i).length_results_le

theorem exists_tracks {evs : List Event} (hrun : Run (Steps marshal) new evs s) :
    ∃ st, s.Tracks marshal False st :=
  hrun.invariant (I := fun s => ∃ st, s.Tracks marshal False st)
    (fun ⟨_, h⟩ hs => h.step hs False.elim) ⟨_, tracks_new⟩

/-- **Request and response match.**  Along every run, if requests are brief: a request gets one
result at most; a channel from the pool is empty and not that of a pending request, and a channel
has one pending request at most; where the broker is to send a result there is room for it; the
responses are those that the server made in the run; and if all of them were prompt, a result is a
timeout, a closed connection or that of a response to the very request. -/
theorem results_match (marshal : ℕ → ℤ → ServerMap → Bytes) {evs : List Event} {s : Broker}
    (hrun : Run (Steps marshal) new evs s) :
    (∀ i, (s.results i).length ≤ 1)
      ∧ (∀ ch, ch ∈ s.pool ∨ ch = s.fresh →
        s.chans ch = none ∧ ∀ i, s.Pending i → s.rch i ≠ some ch)
      ∧ (∀ i j, s.Pending i → s.Pending j → s.rch i = s.rch j → i = j)
      ∧ (∀ ch, (∃ tid, s.waits tid = some ch) ∨ (∃ r, s.held = some (ch, r)) → s.chans ch = none)
      ∧ (∀ i m, (i, m) ∈ s.replies → s.Served marshal evs i m)
      ∧ (Run (PromptSteps marshal) new evs s →
        ∀ i, ∀ r ∈ s.results i, r.IsLocal ∨ s.Answers i r) := by
  obtain ⟨st, h⟩ := exists_tracks hrun
  refine ⟨h.length_results_le, fun ch hch => ⟨h.chans_of_pool hch, fun i hp hi => ?_⟩,
    fun i j hpi hpj heq => ?_, ?_, fun i m => served_of_run hrun, fun hprompt i r hr => ?_⟩
  · obtain ⟨-, -, hread⟩ := h.of_pending hp
    rcases hch with hch | rfl
    · exact hread (h.pool_read hch hi)
    · exact absurd (h.lt_fresh hi) (lt_irrefl _)
  · obtain ⟨ch, hi, hri⟩ := h.of_pending hpi
    obtain ⟨-, -, hrj⟩ := h.of_pending hpj
    exact h.unique hi (heq.symm.trans hi) hri hrj
  · rintro ch (⟨tid, hw⟩ | ⟨r, hh⟩)
    · exact h.chans_of_waits hw
    · exact h.chans_of_held hh
  · obtain ⟨st', h'⟩ : ∃ st, s.Tracks marshal True st :=
      hprompt.invariant (I := fun s => ∃ st, s.Tracks marshal True st)
        (fun ⟨_, h⟩ hs => h.step hs.2 fun _ => hs.1) ⟨_, tracks_new⟩
    obtain ⟨ch, hi, hv⟩ := h'.mem_results hr
    exact h'.answers trivial hi hv

/-! ## Two runs -/

/-- The event, before `2^32` messages have been sent. -/
def nextYoung (marshal : ℕ → ℤ → ServerMap → Bytes) (s : Broker) (ev : Event) : Option Broker :=
  if s.taken < 2 ^ 32 then s.next marshal ev else none

theorem promptSteps_of_nextYoung {ev : Event} {s' : Broker}
    (h : s.nextYoung marshal ev = some s') : s.PromptSteps marshal ev s' := by
  obtain ⟨hlt, h⟩ := Option.ite_none_right_eq_some.mp h
  refine ⟨?_, ?_, h⟩
  · cases ev with
    | receive k => exact fun p _ => hlt.le.trans (Nat.le_add_left ..)
    | _ => trivial
  · cases ev with
    | take => exact fun i _ => hlt.trans_le (Nat.le_add_left ..)
    | _ => trivial

/-- A run of few messages, and what is observed at its end. -/
theorem exists_run {evs : List Event} {P : Broker → Prop} [DecidablePred P]
    (h : (evs.foldlM (nextYoung marshal) new).any (fun s => decide (P s)) = true) :
    ∃ s, Run (PromptSteps marshal) new evs s ∧ P s := by
  obtain ⟨s, hs, hP⟩ := (Option.any_eq_true _ _).mp h
  exact ⟨s, (Run.of_foldlM hs).mono promptSteps_of_nextYoung, of_decide_eq_true hP⟩

/-- A server whose only chunk is not present. -/
def aServer : DBServer := ⟨.new "" 64 1, .create 1, 0, false, [], []⟩

/-- `GetChunkInfo` of that chunk. -/
def infoRequest : Message := ⟨Operation.getChunkInfo, 0, [0, 0, 0, 0], []⟩

/-- A `Set`. -/
def setRequest : Message := ⟨Operation.set, 0, [1], []⟩

/-- The answer to `infoRequest`. -/
def infoResponse : Message := ⟨Operation.response, 0, [], leBytes 8 (2 ^ 64 - 1)⟩

/-- Two requests at once, whose responses arrive the other way round, one of them twice; and one on
a channel that was used, which is not answered. -/
def threeRequests : List Event :=
  [.send infoRequest 500 0, .send setRequest 500 1, .take, .take, .serve 0 aServer,
    .serve 1 aServer, .receive 1, .put, .receive 0, .put, .receive 0, .wait 0 true,
    .send setRequest 500 0, .take, .receive 0, .expire 2 false]

theorem results_match_three : ∃ s, Run (Steps fun _ _ _ => []) new threeRequests s
    ∧ s.results 0 = [⟨leBytes 8 (2 ^ 64 - 1), none⟩]
    ∧ s.results 1 = [⟨[], some (.response (textBytes "ChunkNotPresent"))⟩]
    ∧ s.results 2 = [⟨[], some .timeout⟩]
    ∧ (∀ i, (s.results i).length ≤ 1)
    ∧ (∀ ch, ch ∈ s.pool ∨ ch = s.fresh →
      s.chans ch = none ∧ ∀ i, s.Pending i → s.rch i ≠ some ch)
    ∧ (∀ i j, s.Pending i → s.Pending j → s.rch i = s.rch j → i = j)
    ∧ (∀ ch, (∃ tid, s.waits tid = some ch) ∨ (∃ r, s.held = some (ch, r)) → s.chans ch = none)
    ∧ (∀ i m, (i, m) ∈ s.replies → s.Served (fun _ _ _ => []) threeRequests i m)
    ∧ (Run (PromptSteps fun _ _ _ => []) new threeRequests s →
      ∀ i, ∀ r ∈ s.results i, r.IsLocal ∨ s.Answers i r) := by
  obtain ⟨s, hrun, h0, h1, h2⟩ : ∃ s, Run (PromptSteps fun _ _ _ => []) new threeRequests s
      ∧ s.results 0 = [⟨leBytes 8 (2 ^ 64 - 1), none⟩]
      ∧ s.results 1 = [⟨[], some (.response (textBytes "ChunkNotPresent"))⟩]
      ∧ s.results 2 = [⟨[], some .timeout⟩] := exists_run (by decide +kernel)
  have hsteps : Run (Steps fun _ _ _ => []) new threeRequests s := hrun.mono And.right
  exact ⟨s, hsteps, h0, h1, h2, results_match _ hsteps⟩

theorem deliver_eq {ch : ℕ} (r : Result) (h : s.chans ch = none) : s.deliver ch r = some { s with
      chans := Function.update s.chans ch (some r)
      results := Function.update s.results (s.owner ch) (s.results (s.owner ch) ++ [r]) } := by
  rw [deliver, h]

/-- The next message is taken as it is sent. -/
theorem getElem?_taken (htaken : s.taken = s.sent.length) (msg : BrokerMsg) :
    (s.sent ++ [msg])[s.taken]? = some msg := by
  rw [htaken, List.getElem?_concat_length]

/-- A message that is sent is the only one that can be pending, if none was. -/
theorem eq_length_of_pending (hpend : ∀ i, ¬ s.Pending i) {msg : BrokerMsg} {i : ℕ}
    (h : (s.sent ++ [msg])[i]?.bind BrokerMsg.rch ≠ none ∧ s.results i = []) :
    i = s.sent.length ∧ msg.rch ≠ none := by
  obtain ⟨hrch, hres⟩ := h
  rw [rch_snoc] at hrch
  split at hrch
  · next hi => exact ⟨hi, hrch⟩
  · exact absurd ⟨hrch, hres⟩ (hpend i)

/-- Messages without a timeout may be sent for as long as one likes. -/
theorem run_idle (marshal : ℕ → ℤ → ServerMap → Bytes) (mess : Message) (n : ℕ) :
    ∀ {s : Broker}, s.closed = false → s.taken = s.sent.length → (∀ i, ¬ s.Pending i) →
      ∃ evs s', Run (Steps marshal) s evs s' ∧ (∀ i, ¬ s'.Pending i)
        ∧ s' = { s with
          sent := s.sent ++ List.replicate n ⟨mess, 0, none⟩
          taken := s.taken + n } := by
  induction n with
  | zero =>
    intro s _ _ hpend
    refine ⟨[], s, .refl s, hpend, ?_⟩
    rw [List.replicate_zero, List.append_nil, Nat.add_zero]
  | succ n ih =>
    intro s hclosed htaken hpend
    have hnone : ∀ i, ¬ ((s.sent ++ [⟨mess, 0, none⟩])[i]?.bind BrokerMsg.rch ≠ none
        ∧ s.results i = []) := fun i hi => (eq_length_of_pending hpend hi).2 rfl
    let s₁ : Broker := { s with sent := s.sent ++ [⟨mess, 0, none⟩] }
    let s₂ : Broker := { s₁ with taken := s.taken + 1 }
    have h₁ : s.next marshal (.send mess 0 0) = some s₁ := by
      rw [next, if_neg (Bool.eq_false_iff.mp hclosed), if_pos rfl]
    have h₂ : s₁.next marshal .take = some s₂ := by
      rw [next, show s₁.sent[s₁.taken]? = _ from getElem?_taken htaken _]
      rfl
    have hlen : s₂.taken = s₂.sent.length := by
      rw [List.length_append, List.length_singleton, ← htaken]
    obtain ⟨evs, s', hrun, hpend', hs'⟩ := ih (s := s₂) hclosed hlen hnone
    refine ⟨.send mess 0 0 :: .take :: evs, s', .cons ⟨trivial, h₁⟩
      (.cons ⟨fun i hi => absurd hi (hnone i), h₂⟩ hrun), hpend', hs'.trans ?_⟩
    rw [List.replicate_succ, List.append_cons, Nat.add_comm n 1, ← Nat.add_assoc]

/-- **A late response**: it has the ID of the request that is sent next, and goes to it. -/
theorem run_late (marshal : ℕ → ℤ → ServerMap → Bytes) (mess : Message) {ch : ℕ} {m : Message}
    (hclosed : s.closed = false)
    (htaken : s.taken = s.sent.length) (hpend : ∀ i, ¬ s.Pending i) (hpool : ch ∈ s.pool)
    (hheld : s.held = none) (hreply : ∃ j, s.replies[0]? = some (j, m))
    (hid : m.id = UInt32.ofNat s.sent.length) (hchan : s.chans ch = none)
    (hres : s.results s.sent.length = []) : ∃ s',
      Run (Steps marshal) s [.send mess 500 ch, .take, .receive 0, .put] s'
        ∧ s'.results s.sent.length = [.ofMessage m]
        ∧ s'.sent[s.sent.length]? = some ⟨mess, 500, some ch⟩ := by
  obtain ⟨j, hreply⟩ := hreply
  let s₁ : Broker := s.request mess 500 ch (s.pool.erase ch) s.fresh
  let s₂ : Broker :=
    { s₁ with taken := s.taken + 1, waits := Function.update s.waits m.id (some ch) }
  let s₃ : Broker :=
    { s₂ with waits := Function.update s₂.waits m.id none, held := some (ch, .ofMessage m) }
  have h₁ : s.next marshal (.send mess 500 ch) = some s₁ := by
    rw [next, if_neg (Bool.eq_false_iff.mp hclosed), if_neg (by decide), if_pos hpool]
  have h₂ : s₁.next marshal .take = some s₂ := by
    rw [next, show s₁.sent[s₁.taken]? = _ from getElem?_taken htaken _]
    change s₁.register ⟨mess, 500, some ch⟩ = _
    rw [register, if_pos (show (500 : ℤ) > 0 by decide),
      show UInt32.ofNat s₁.taken = m.id by rw [hid, ← htaken]; rfl]
    rfl
  have h₃ : s₂.next marshal (.receive 0) = some s₃ := by
    rw [next, if_pos (show s₂.held = none from hheld),
      show s₂.replies[0]? = some (j, m) from hreply]
    change some (s₂.respond m) = _
    rw [respond, show s₂.waits m.id = some ch from Function.update_self ..]
  have h₄ : s₃.next marshal .put = _ :=
    deliver_eq (s := { s₃ with held := none }) (.ofMessage m) hchan
  have howner : s₃.owner ch = s.sent.length := Function.update_self ..
  refine ⟨_, .cons ⟨trivial, h₁⟩ (.cons ⟨fun i hi => ?_, h₂⟩ (.cons ⟨trivial, h₃⟩
    (.cons ⟨trivial, h₄⟩ (.refl _)))), ?_, List.getElem?_concat_length⟩
  · obtain ⟨rfl, -⟩ := eq_length_of_pending hpend hi
    exact htaken.trans_lt (Nat.lt_add_of_pos_right (by decide))
  · change Function.update s.results (s₃.owner ch) (s.results (s₃.owner ch) ++ [_]) _ = _
    rw [howner, Function.update_self, hres]
    rfl

/-- A response to a `Set` has no value. -/
theorem Responds.value_of_set {i : ℕ} {m message : Message} (h : s.Responds marshal i m)
    (hwire : s.onWire i = some message) (htype : message.type = Operation.set) :
    (Result.ofMessage m).value = [] := by
  obtain ⟨message', hwire', server, server', hx, hm⟩ := h
  obtain rfl := Option.some.inj (hwire.symm.trans hwire')
  rw [DBServer.processMessage] at hx
  split at hx
  · cases hx
    cases hm
  · rw [DBServer.respond, if_neg (by rw [htype]; decide), if_pos htype] at hx
    obtain ⟨⟨⟨type, value⟩, server₁⟩, hresp, hx⟩ := Call.bind_eq_ok.mp hx
    obtain ⟨⟨e, server₂⟩, -, hresp⟩ := Call.bind_eq_ok.mp hresp
    cases hx
    cases e <;> cases hresp <;> rfl

/-- A request that times out before its response arrives. -/
def timedOut : List Event :=
  [.send infoRequest 500 0, .take, .serve 0 aServer, .expire 0 false, .wait 0 true]

/-- **IDs are used again**: the response to a request that timed out arrives `2^32` messages later,
and is taken for the answer to a `Set`, although no request was pending for more than a few
messages; no server responds to it in this way. -/
theorem late_response_mismatch : ∃ evs s, Run (Steps fun _ _ _ => []) new evs s
    ∧ ∃ r ∈ s.results (2 ^ 32), ¬ r.IsLocal ∧ ¬ s.Answers (2 ^ 32) r
      ∧ ∀ m, s.Responds (fun _ _ _ => []) (2 ^ 32) m → r ≠ .ofMessage m := by
  obtain ⟨s, hrun, hsent, htaken, hclosed, hheld, hpool, hreply, hchan, hres₀, hres⟩ : ∃ s,
      Run (PromptSteps fun _ _ _ => []) new timedOut s
        ∧ s.sent = [⟨infoRequest, 500, some 0⟩] ∧ s.taken = 1 ∧ s.closed = false ∧ s.held = none
        ∧ 0 ∈ s.pool ∧ s.replies[0]? = some (0, infoResponse) ∧ s.chans 0 = none
        ∧ s.results 0 ≠ [] ∧ s.results (2 ^ 32) = [] := exists_run (by decide +kernel)
  have hpend : ∀ i, ¬ s.Pending i := by
    rintro i ⟨hrch, hnil⟩
    rcases i with _ | i
    · exact hres₀ hnil
    · rw [rch, hsent] at hrch
      exact hrch rfl
  have hlen : s.sent.length = 1 := by rw [hsent]; rfl
  obtain ⟨evs, s₁, hidle, hpend₁, hs₁⟩ := run_idle (fun _ _ _ => []) setRequest (2 ^ 32 - 1) hclosed
    (htaken.trans hlen.symm) hpend
  have hlen₁ : s₁.sent.length = 2 ^ 32 := by
    rw [hs₁]
    dsimp only
    rw [List.length_append, List.length_replicate, hlen, Nat.add_sub_cancel' Nat.one_le_two_pow]
  have htaken₁ : s₁.taken = 2 ^ 32 := by
    rw [hs₁]
    dsimp only
    rw [htaken, Nat.add_sub_cancel' Nat.one_le_two_pow]
  have hpool₁ : 0 ∈ s₁.pool := by
    rw [hs₁]
    exact hpool
  have hreply₁ : s₁.replies[0]? = some (0, infoResponse) := by
    rw [hs₁]
    exact hreply
  obtain ⟨s', hlate, hresult, hmess⟩ := run_late (fun _ _ _ => []) setRequest
    (by rw [hs₁]; exact hclosed) (htaken₁.trans hlen₁.symm) hpend₁ hpool₁
    (by rw [hs₁]; exact hheld) ⟨0, hreply₁⟩ (by rw [hlen₁]; decide) (by rw [hs₁]; exact hchan)
    (by rw [hlen₁, hs₁]; exact hres)
  rw [hlen₁] at hresult hmess
  have hall := ((hrun.mono And.right).append hidle).append hlate
  have hwire : s'.onWire (2 ^ 32) = some { setRequest with id := UInt32.ofNat (2 ^ 32) } := by
    rw [onWire, hmess]
    rfl
  have hnever : ∀ m, s'.Responds (fun _ _ _ => []) (2 ^ 32) m →
      Result.ofMessage infoResponse ≠ .ofMessage m := fun m hm heq => by
    have hvalue := hm.value_of_set hwire rfl
    rw [← heq] at hvalue
    cases hvalue
  refine ⟨_, s', hall, .ofMessage infoResponse, ?_, ?_, ?_, hnever⟩
  · rw [hresult]
    exact List.mem_singleton_self _
  · rintro (h | h) <;> cases h
  · rintro ⟨m, hm, heq⟩
    obtain ⟨st, h⟩ := exists_tracks hall
    exact hnever m (h.replies hm).2 heq

end Broker

end Treeless
