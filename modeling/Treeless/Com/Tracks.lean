import Treeless.Com.Broker

/-!
# Com/Tracks — where a request is

A request goes through five states; `Tracks` says where each of them is found in the connection:

    queued ──► waiting ──► held r ──► full r ──► read r
                  └───────────────────►┘

Every event moves one request at most (`Tracks.move`), or adds one at the end (`Tracks.snoc`).  An
ID is used again after `2^32` messages, so the channel that `waits` has for the ID of a response is
that of its own request only if neither is that old (`eq_of_ofNat_eq`).
-/

namespace Treeless

/-- Where a request is, from `send` to `Wait`. -/
inductive Status
  | queued
  | waiting
  | held (r : Result)
  | full (r : Result)
  | read (r : Result)

namespace Status

/-- The result on its way to the request. -/
def value : Status → Option Result
  | held r | full r | read r => some r
  | _ => none

/-- The results that were sent on the channel of the request. -/
def results : Status → List Result
  | full r | read r => [r]
  | _ => []

/-- The client has received the result. -/
def IsRead : Status → Prop
  | read _ => True
  | _ => False

theorem length_results_le : ∀ x : Status, x.results.length ≤ 1
  | queued | waiting | held _ => Nat.zero_le 1
  | full _ | read _ => le_rfl

theorem value_of_mem_results : ∀ {x : Status} {r : Result}, r ∈ x.results → x.value = some r
  | full _, _, h | read _, _, h => congrArg some (List.mem_singleton.mp h).symm

theorem not_isRead_of_results : ∀ {x : Status}, x.results = [] → ¬ x.IsRead
  | queued, _ | waiting, _ | held _, _ | full _, _ => id

end Status

/-- Two numbers of the last `2^32` with the same 32 bits are the same. -/
theorem eq_of_ofNat_eq {i j n : ℕ} (h : UInt32.ofNat i = UInt32.ofNat j) (hi : i < n) (hj : j < n)
    (hin : n ≤ i + 2 ^ 32) (hjn : n ≤ j + 2 ^ 32) : i = j := by
  have hmod : i % 2 ^ 32 = j % 2 ^ 32 := by
    have := congrArg UInt32.toNat h
    rwa [UInt32.toNat_ofNat', UInt32.toNat_ofNat'] at this
  omega

namespace Broker

variable (marshal : ℕ → ℤ → ServerMap → Bytes) (s : Broker)

/-- The server's response to the message of number `i`, in some state of the server. -/
def Responds (i : ℕ) (m : Message) : Prop :=
  ∃ message, s.onWire i = some message ∧ ∃ server server' : DBServer,
    server.processMessage marshal message = .ok (m, server') ∧ m.type > 0

/-- The result is that of a response which the server made to the request `i`. -/
def Answers (i : ℕ) (r : Result) : Prop := ∃ m, (i, m) ∈ s.replies ∧ r = .ofMessage m

/-- The request has no result yet. -/
def Pending (i : ℕ) : Prop := s.rch i ≠ none ∧ s.results i = []

/-- Where the requests are; if `P`, the results are those of their own requests. -/
structure Tracks (P : Prop) (st : ℕ → Status) : Prop where
  taken_le : s.taken ≤ s.sent.length
  lt_fresh : ∀ {i ch}, s.rch i = some ch → ch < s.fresh
  pool_lt : ∀ {ch}, ch ∈ s.pool → ch < s.fresh
  /-- The requests of a channel in the pool are over. -/
  pool_read : ∀ {ch}, ch ∈ s.pool → ∀ {i}, s.rch i = some ch → (st i).IsRead
  pool_nodup : s.pool.Nodup
  /-- A channel has one request at a time. -/
  owner : ∀ {i ch}, s.rch i = some ch → ¬ (st i).IsRead → s.owner ch = i
  queued : ∀ {i ch}, s.rch i = some ch → (st i = .queued ↔ s.taken ≤ i)
  /-- A request without a result is not old. -/
  recent : ∀ {i ch}, s.rch i = some ch → (st i).results = [] → s.taken ≤ i + 2 ^ 32
  waits : ∀ {tid ch}, s.waits tid = some ch →
    ∃ i, s.rch i = some ch ∧ st i = .waiting ∧ tid = UInt32.ofNat i
  held : ∀ {ch r}, s.held = some (ch, r) → ∃ i, s.rch i = some ch ∧ st i = .held r
  chans : ∀ {ch r}, s.chans ch = some r → ∃ i, s.rch i = some ch ∧ st i = .full r
  waited : ∀ {i ch}, s.rch i = some ch → s.waited i = false → ¬ (st i).IsRead
  results : ∀ {i ch}, s.rch i = some ch → s.results i = (st i).results
  results_none : ∀ {i}, s.rch i = none → s.results i = []
  /-- A result that is on its way, or has arrived, is the server's answer. -/
  answers : P → ∀ {i ch r}, s.rch i = some ch → (st i).value = some r →
    r.IsLocal ∨ s.Answers i r
  replies : ∀ {i m}, (i, m) ∈ s.replies → i < s.taken ∧ s.Responds marshal i m

variable {marshal s} {P : Prop} {st : ℕ → Status}

/-! ## What the states say -/

namespace Tracks

/-- Two requests of one channel are the same, while neither is over. -/
theorem unique (h : s.Tracks marshal P st) {i j ch : ℕ} (hi : s.rch i = some ch)
    (hj : s.rch j = some ch) (hri : ¬ (st i).IsRead) (hrj : ¬ (st j).IsRead) : i = j :=
  (h.owner hi hri).symm.trans (h.owner hj hrj)

/-- **The channel of a request is empty** until its result is sent. -/
theorem chans_eq_none (h : s.Tracks marshal P st) {i ch : ℕ} (hi : s.rch i = some ch)
    (hri : (st i).results = []) : s.chans ch = none := by
  cases hc : s.chans ch with
  | none => rfl
  | some r =>
    obtain ⟨j, hj, hst⟩ := h.chans hc
    obtain rfl := h.unique hi hj (Status.not_isRead_of_results hri) (by rw [hst]; exact id)
    rw [hst] at hri
    cases hri

/-- The request of a channel that `waits` has. -/
theorem chans_of_waits (h : s.Tracks marshal P st) {tid : UInt32} {ch : ℕ}
    (hw : s.waits tid = some ch) : s.chans ch = none := by
  obtain ⟨i, hi, hst, -⟩ := h.waits hw
  exact h.chans_eq_none hi (by rw [hst]; rfl)

theorem chans_of_held (h : s.Tracks marshal P st) {ch : ℕ} {r : Result}
    (hw : s.held = some (ch, r)) : s.chans ch = none := by
  obtain ⟨i, hi, hst⟩ := h.held hw
  exact h.chans_eq_none hi (by rw [hst]; rfl)

/-- **A channel that the pool has, or makes, is empty.** -/
theorem chans_of_pool (h : s.Tracks marshal P st) {ch : ℕ} (hch : ch ∈ s.pool ∨ ch = s.fresh) :
    s.chans ch = none := by
  cases hc : s.chans ch with
  | none => rfl
  | some r =>
    obtain ⟨j, hj, hst⟩ := h.chans hc
    rcases hch with hch | rfl
    · have := h.pool_read hch hj
      rw [hst] at this
      exact this.elim
    · exact absurd (h.lt_fresh hj) (lt_irrefl _)

/-! ## A request moves on -/

section Move

variable {i ch : ℕ} {y : Status}

theorem of_waits (h : s.Tracks marshal P st) (hi : s.rch i = some ch) (hx : ¬ (st i).IsRead)
    {tid : UInt32} (hw : s.waits tid = some ch) : st i = .waiting ∧ tid = UInt32.ofNat i := by
  obtain ⟨j, hj, hst, htid⟩ := h.waits hw
  obtain rfl := h.unique hi hj hx (by rw [hst]; exact id)
  exact ⟨hst, htid⟩

theorem of_held (h : s.Tracks marshal P st) (hi : s.rch i = some ch) (hx : ¬ (st i).IsRead)
    {r : Result} (hh : s.held = some (ch, r)) : st i = .held r := by
  obtain ⟨j, hj, hst⟩ := h.held hh
  obtain rfl := h.unique hi hj hx (by rw [hst]; exact id)
  exact hst

theorem of_chans (h : s.Tracks marshal P st) (hi : s.rch i = some ch) (hx : ¬ (st i).IsRead)
    {r : Result} (hc : s.chans ch = some r) : st i = .full r := by
  obtain ⟨j, hj, hst⟩ := h.chans hc
  obtain rfl := h.unique hi hj hx (by rw [hst]; exact id)
  exact hst

/-- Where the channels are, after the request `i` has moved to `y`; the others have not moved. -/
structure Moved (s : Broker) (i ch : ℕ) (y : Status) (s' : Broker) : Prop where
  sent : s'.sent = s.sent
  taken : s'.taken = s.taken
  fresh : s'.fresh = s.fresh
  replies : s'.replies = s.replies
  owner : s'.owner = s.owner
  pool : s'.pool = s.pool ∨ (y.IsRead ∧ s'.pool = ch :: s.pool)
  waits : ∀ {tid c}, s'.waits tid = some c → s.waits tid = some c ∧ c ≠ ch
  held : ∀ {c r}, s'.held = some (c, r) → (c = ch ∧ y = .held r) ∨ (s.held = some (c, r) ∧ c ≠ ch)
  chans : ∀ {c r}, s'.chans c = some r → (c = ch ∧ y = .full r) ∨ (s.chans c = some r ∧ c ≠ ch)
  waited : ∀ {j}, s'.waited j = false → s.waited j = false ∧ (j = i → ¬ y.IsRead)
  results : s'.results = Function.update s.results i y.results

/-- **One request moves on**, with the server's answer or a local error. -/
theorem move (h : s.Tracks marshal P st) {s' : Broker} (hm : Moved s i ch y s')
    (hi : s.rch i = some ch) (hx : ¬ (st i).IsRead) (htaken : i < s.taken) (hy : y ≠ .queued)
    (hres : y.results = [] → (st i).results = [])
    (hans : P → ∀ {r}, y.value = some r → r.IsLocal ∨ s.Answers i r) :
    s'.Tracks marshal P (Function.update st i y) := by
  obtain ⟨sent', taken', waits', held', chans', pool', fresh', closed', waited', replies', owner',
    results'⟩ := s'
  obtain ⟨hsent, htaken', hfresh, hreplies, howner, hpool, hwaits, hheld, hchans, hwaited,
    hresults⟩ := hm
  dsimp only at hsent htaken' hfresh hreplies howner hpool hwaits hheld hchans hwaited hresults
  subst hsent htaken' hfresh hreplies howner hresults
  -- the requests of other channels have not moved
  have hother : ∀ {j c}, s.rch j = some c → c ≠ ch → Function.update st i y j = st j :=
    fun {j c} hj hc => Function.update_of_ne (by
      rintro rfl
      exact hc (Option.some.inj (hj.symm.trans hi))) _ _
  constructor
  case taken_le => exact h.taken_le
  case lt_fresh => exact h.lt_fresh
  case pool_lt =>
    intro c hc
    rcases hpool with rfl | ⟨-, rfl⟩
    · exact h.pool_lt hc
    · rcases List.mem_cons.mp hc with rfl | hc
      · exact h.lt_fresh hi
      · exact h.pool_lt hc
  case pool_read =>
    intro c hc j hj
    have hold : c ∈ s.pool → (Function.update st i y j).IsRead := fun hc => by
      have hr := h.pool_read hc hj
      rwa [Function.update_of_ne]
      rintro rfl
      exact hx hr
    rcases hpool with rfl | ⟨hyr, rfl⟩
    · exact hold hc
    · rcases List.mem_cons.mp hc with rfl | hc
      · by_cases hji : j = i
        · rwa [hji, Function.update_self]
        · rw [Function.update_of_ne hji]
          exact not_not.mp fun hr => hji (h.unique hj hi hr hx)
      · exact hold hc
  case pool_nodup =>
    rcases hpool with rfl | ⟨-, rfl⟩
    · exact h.pool_nodup
    · exact List.nodup_cons.mpr ⟨fun hc => hx (h.pool_read hc hi), h.pool_nodup⟩
  case owner =>
    intro j c hj hr
    rcases eq_or_ne j i with rfl | hne
    · exact h.owner hj hx
    · rw [Function.update_of_ne hne] at hr
      exact h.owner hj hr
  case queued =>
    intro j c hj
    rcases eq_or_ne j i with rfl | hne
    · rw [Function.update_self]
      exact iff_of_false hy (not_le.mpr htaken)
    · rw [Function.update_of_ne hne]
      exact h.queued hj
  case recent =>
    intro j c hj hr
    rcases eq_or_ne j i with rfl | hne
    · rw [Function.update_self] at hr
      exact h.recent hj (hres hr)
    · rw [Function.update_of_ne hne] at hr
      exact h.recent hj hr
  case waits =>
    intro tid c hw
    obtain ⟨hw, hc⟩ := hwaits hw
    obtain ⟨j, hj, hst, htid⟩ := h.waits hw
    exact ⟨j, hj, (hother hj hc).trans hst, htid⟩
  case held =>
    intro c r hh
    rcases hheld hh with ⟨rfl, rfl⟩ | ⟨hh, hc⟩
    · exact ⟨i, hi, Function.update_self ..⟩
    · obtain ⟨j, hj, hst⟩ := h.held hh
      exact ⟨j, hj, (hother hj hc).trans hst⟩
  case chans =>
    intro c r hh
    rcases hchans hh with ⟨rfl, rfl⟩ | ⟨hh, hc⟩
    · exact ⟨i, hi, Function.update_self ..⟩
    · obtain ⟨j, hj, hst⟩ := h.chans hh
      exact ⟨j, hj, (hother hj hc).trans hst⟩
  case waited =>
    intro j c hj hw
    obtain ⟨hw, hyr⟩ := hwaited hw
    rcases eq_or_ne j i with rfl | hne
    · rw [Function.update_self]
      exact hyr rfl
    · rw [Function.update_of_ne hne]
      exact h.waited hj hw
  case results =>
    intro j c hj
    dsimp only
    rcases eq_or_ne j i with rfl | hne
    · rw [Function.update_self, Function.update_self]
    · rw [Function.update_of_ne hne, Function.update_of_ne hne]
      exact h.results hj
  case results_none =>
    intro j hj
    dsimp only
    rw [Function.update_of_ne]
    · exact h.results_none hj
    · rintro rfl
      cases hi.symm.trans hj
  case answers =>
    intro hP j c r hj hv
    rcases eq_or_ne j i with rfl | hne
    · rw [Function.update_self] at hv
      exact hans hP hv
    · rw [Function.update_of_ne hne] at hv
      exact h.answers hP hj hv
  case replies => exact h.replies

end Move

end Tracks

/-! ## Events -/

/-- A response has the ID of the message it was made to. -/
theorem id_of_responds {i : ℕ} {m : Message} (h : s.Responds marshal i m) :
    m.id = UInt32.ofNat i := by
  obtain ⟨message, hwire, server, server', hx, htype⟩ := h
  obtain ⟨msg, -, rfl⟩ := Option.map_eq_some_iff.mp hwire
  exact DBServer.id_of_processMessage hx fun h0 => absurd htype (by rw [h0]; decide)

namespace Tracks

section

variable {i ch : ℕ} {x : Status}

theorem lt_taken (h : s.Tracks marshal P st) (hi : s.rch i = some ch) (hst : st i = x)
    (hx : x ≠ .queued) : i < s.taken :=
  not_le.mp fun hle => hx (hst.symm.trans ((h.queued hi).mpr hle))

theorem results_eq (h : s.Tracks marshal P st) (hi : s.rch i = some ch) (hst : st i = x) :
    s.results i = x.results := by
  rw [h.results hi, hst]

theorem update_results {rs : List Result} (h : s.results i = rs) :
    Function.update s.results i rs = s.results := by
  rw [← h, Function.update_eq_self]

/-- The channels in `waits`, without the one of an ID. -/
theorem waits_erase (h : s.Tracks marshal P st) {tid : UInt32} (hw : s.waits tid = some ch)
    {tid' : UInt32} {c : ℕ} (hw' : Function.update s.waits tid none tid' = some c) :
    s.waits tid' = some c ∧ c ≠ ch := by
  rcases eq_or_ne tid' tid with rfl | hne
  · rw [Function.update_self] at hw'
    cases hw'
  · rw [Function.update_of_ne hne] at hw'
    refine ⟨hw', ?_⟩
    rintro rfl
    obtain ⟨i, hi, hst, htid⟩ := h.waits hw
    exact hne ((h.of_waits hi (by rw [hst]; exact id) hw').2.trans htid.symm)

/-- **A response that is not old goes to its own request.** -/
theorem respond (h : s.Tracks marshal P st) {j : ℕ} {m : Message}
    (hm : (j, m) ∈ s.replies) (hj : P → s.taken ≤ j + 2 ^ 32) :
    ∃ st', (s.respond m).Tracks marshal P st' := by
  obtain ⟨hjlt, hresp⟩ := h.replies hm
  rw [Broker.respond]
  split
  · exact ⟨st, h⟩
  · next ch hw =>
    obtain ⟨i, hi, hst, htid⟩ := h.waits hw
    have hilt : i < s.taken := h.lt_taken hi hst (by simp)
    -- the request that waits under the ID of the response is the one it was made to
    have hown : P → i = j := fun hP => eq_of_ofNat_eq (htid.symm.trans (id_of_responds hresp)) hilt
      hjlt (h.recent hi (by rw [hst]; rfl)) (hj hP)
    refine ⟨_, h.move (y := .held (.ofMessage m)) ?_ hi (by rw [hst]; exact id) hilt (by simp)
      (fun _ => by rw [hst]; rfl) fun hP r hv =>
        Or.inr ⟨m, hown hP ▸ hm, (Option.some.inj hv).symm⟩⟩
    exact {
      sent := rfl, taken := rfl, fresh := rfl, replies := rfl, owner := rfl, pool := Or.inl rfl
      waits := h.waits_erase hw
      held := fun hh => by
        cases hh
        exact Or.inl ⟨rfl, rfl⟩
      chans := fun hc => Or.inr ⟨hc, fun heq => by
        rw [heq, h.chans_of_waits hw] at hc
        cases hc⟩
      waited := fun hw => ⟨hw, fun _ => id⟩
      results := (update_results (h.results_eq hi hst)).symm }

/-- **The result that the broker sends arrives**, and is the only one. -/
theorem deliver (h : s.Tracks marshal P st) (hi : s.rch i = some ch) (hst : st i = x)
    (hx : ¬ x.IsRead) (hq : x ≠ .queued) (hres : x.results = [])
    {w : UInt32 → Option ℕ} {p : Option (ℕ × Result)} {r : Result} {s' : Broker}
    (hw : ∀ {tid c}, w tid = some c → s.waits tid = some c ∧ c ≠ ch)
    (hp : ∀ {c r}, p = some (c, r) → s.held = some (c, r) ∧ c ≠ ch)
    (hans : P → r.IsLocal ∨ s.Answers i r)
    (hs' : Broker.deliver { s with waits := w, held := p } ch r = some s') :
    ∃ st', s'.Tracks marshal P st' := by
  have howner : s.owner ch = i := h.owner hi (hst ▸ hx)
  have hnil : s.results i = [] := (h.results_eq hi hst).trans hres
  rw [Broker.deliver] at hs'
  dsimp only at hs'
  rw [h.chans_eq_none hi (hst ▸ hres), howner, hnil] at hs'
  obtain rfl := Option.some.inj hs'
  refine ⟨_, h.move (y := .full r) ?_ hi (hst ▸ hx) (h.lt_taken hi hst hq) (by simp)
    (fun hne => by cases hne) fun hP _ hv => Option.some.inj hv ▸ hans hP⟩
  exact {
    sent := rfl, taken := rfl, fresh := rfl, replies := rfl, owner := rfl, pool := Or.inl rfl
    waits := hw
    held := fun hh => Or.inr (hp hh)
    chans := fun {c r'} hc => by
      dsimp only at hc
      rcases eq_or_ne c ch with rfl | hne
      · rw [Function.update_self] at hc
        exact Or.inl ⟨rfl, congrArg _ (Option.some.inj hc)⟩
      · rw [Function.update_of_ne hne] at hc
        exact Or.inr ⟨hc, hne⟩
    waited := fun hw => ⟨hw, fun _ => id⟩
    results := rfl }

/-- **`From world` sends what it holds.** -/
theorem put (h : s.Tracks marshal P st) {s' : Broker} (hs' : s.next marshal .put = some s') :
    ∃ st', s'.Tracks marshal P st' := by
  obtain ⟨⟨ch, r⟩, hheld, hs'⟩ := Option.bind_eq_some_iff.mp hs'
  obtain ⟨i, hi, hst⟩ := h.held hheld
  refine h.deliver hi hst id (by simp) rfl (fun hw => ⟨hw, ?_⟩) (fun hp => by cases hp)
    (fun hP => h.answers hP hi (by rw [hst]; rfl)) hs'
  rintro rfl
  have hwait := (h.of_waits hi (by rw [hst]; exact id) hw).1
  rw [hst] at hwait
  cases hwait

/-- **A request times out**, or the connection is closed. -/
theorem expire (h : s.Tracks marshal P st) {tid : UInt32} {closing : Bool} {s' : Broker}
    (hs' : s.next marshal (.expire tid closing) = some s') : ∃ st', s'.Tracks marshal P st' := by
  obtain ⟨-, hs'⟩ := Option.ite_none_right_eq_some.mp hs'
  obtain ⟨ch, hw, hs'⟩ := Option.bind_eq_some_iff.mp hs'
  obtain ⟨i, hi, hst, -⟩ := h.waits hw
  refine h.deliver hi hst id (by simp) rfl (h.waits_erase hw) (fun hp => ⟨hp, ?_⟩) ?_ hs'
  · rintro rfl
    have hheld := h.of_held hi (by rw [hst]; exact id) hp
    rw [hst] at hheld
    cases hheld
  · cases closing
    · exact fun _ => Or.inl (Or.inl rfl)
    · exact fun _ => Or.inl (Or.inr rfl)

/-- **The client receives the result of a request.** -/
theorem wait (h : s.Tracks marshal P st) {back : Bool} {s' : Broker}
    (hs' : s.next marshal (.wait i back) = some s') : ∃ st', s'.Tracks marshal P st' := by
  obtain ⟨hwaited, hs'⟩ := Option.ite_none_left_eq_some.mp hs'
  obtain ⟨ch, hi, hs'⟩ := Option.bind_eq_some_iff.mp hs'
  obtain ⟨r, hc, hs'⟩ := Option.bind_eq_some_iff.mp hs'
  obtain rfl := Option.some.inj hs'
  have hx := h.waited hi (Bool.eq_false_iff.mpr hwaited)
  have hst := h.of_chans hi hx hc
  refine ⟨_, h.move (y := .read r) ?_ hi hx (h.lt_taken hi hst (by simp)) (by simp)
    (fun hne => by cases hne) fun hP _ hv => h.answers hP hi (by rw [hst]; exact hv)⟩
  exact {
    sent := rfl, taken := rfl, fresh := rfl, replies := rfl, owner := rfl
    pool := by
      cases back
      · exact Or.inl rfl
      · exact Or.inr ⟨trivial, rfl⟩
    waits := fun hw => ⟨hw, fun heq => by
      have hwait := (h.of_waits hi hx (heq ▸ hw)).1
      rw [hst] at hwait
      cases hwait⟩
    held := fun hh => Or.inr ⟨hh, fun heq => by
      have hheld := h.of_held hi hx (heq ▸ hh)
      rw [hst] at hheld
      cases hheld⟩
    chans := fun {c r'} hc => by
      dsimp only at hc
      rcases eq_or_ne c ch with rfl | hne
      · rw [Function.update_self] at hc
        cases hc
      · rw [Function.update_of_ne hne] at hc
        exact Or.inr ⟨hc, hne⟩
    waited := fun {j} hw => by
      dsimp only at hw
      rcases eq_or_ne j i with rfl | hne
      · rw [Function.update_self] at hw
        cases hw
      · rw [Function.update_of_ne hne] at hw
        exact ⟨hw, fun heq => absurd heq hne⟩
    results := (update_results (h.results_eq hi hst)).symm }

end

end Tracks

/-! ## New requests -/

theorem rch_snoc (msg : BrokerMsg) (i : ℕ) : (s.sent ++ [msg])[i]?.bind BrokerMsg.rch
    = if i = s.sent.length then msg.rch else s.rch i := by
  rcases lt_trichotomy i s.sent.length with hlt | rfl | hgt
  · rw [List.getElem?_append_left hlt, if_neg hlt.ne]
    rfl
  · rw [List.getElem?_concat_length, if_pos rfl]
    rfl
  · rw [List.getElem?_eq_none (by rw [List.length_append, List.length_singleton]; omega),
      if_neg hgt.ne', rch, List.getElem?_eq_none hgt.le]

theorem rch_length : s.rch s.sent.length = none := by
  rw [rch, List.getElem?_eq_none le_rfl]
  rfl

/-- A message stays as it is when more are sent. -/
theorem onWire_mono {s' : Broker} (hsent : ∃ rest, s'.sent = s.sent ++ rest) {i : ℕ} {m : Message}
    (h : s.onWire i = some m) : s'.onWire i = some m := by
  obtain ⟨rest, hrest⟩ := hsent
  obtain ⟨msg, hget, hmsg⟩ := Option.map_eq_some_iff.mp h
  rw [onWire, hrest, List.getElem?_append_left (List.getElem?_eq_some_iff.mp hget).1, hget]
  exact congrArg some hmsg

theorem Responds.mono {s' : Broker} {i : ℕ} {m : Message} (h : s.Responds marshal i m)
    (hsent : ∃ rest, s'.sent = s.sent ++ rest) : s'.Responds marshal i m := by
  obtain ⟨message, hwire, hserver⟩ := h
  exact ⟨message, onWire_mono hsent hwire, hserver⟩

namespace Tracks

/-- **A message is sent**; its channel, if it has one, has no other request. -/
theorem snoc (h : s.Tracks marshal P st) {msg : BrokerMsg} {s' : Broker} {owner' : ℕ → ℕ}
    {pool' : List ℕ} {fresh' : ℕ}
    (hs' : s' = { s with sent := s.sent ++ [msg], owner := owner', pool := pool', fresh := fresh' })
    (hpool : pool'.Nodup) (hsub : ∀ c ∈ pool', c ∈ s.pool) (hfresh : s.fresh ≤ fresh')
    (howner : ∀ c, msg.rch ≠ some c → owner' c = s.owner c)
    (hnew : ∀ c, msg.rch = some c → owner' c = s.sent.length ∧ c < fresh' ∧ c ∉ pool'
      ∧ ∀ i, s.rch i = some c → (st i).IsRead) :
    s'.Tracks marshal P (Function.update st s.sent.length .queued) := by
  subst hs'
  -- the new message, or an old one that has not moved
  have hrch : ∀ {i c}, (s.sent ++ [msg])[i]?.bind BrokerMsg.rch = some c →
      (i = s.sent.length ∧ msg.rch = some c)
        ∨ (s.rch i = some c ∧ Function.update st s.sent.length .queued i = st i) := by
    intro i c hi
    rw [rch_snoc] at hi
    split at hi
    · next heq => exact Or.inl ⟨heq, hi⟩
    · next hne => exact Or.inr ⟨hi, Function.update_of_ne hne _ _⟩
  have hold : ∀ {i c}, s.rch i = some c → (s.sent ++ [msg])[i]?.bind BrokerMsg.rch = some c
      ∧ Function.update st s.sent.length .queued i = st i := fun {i c} hi => by
    have hne : i ≠ s.sent.length := fun heq => by
      rw [heq, rch_length] at hi
      cases hi
    rw [rch_snoc, if_neg hne]
    exact ⟨hi, Function.update_of_ne hne _ _⟩
  have hself : Function.update st s.sent.length .queued s.sent.length = .queued :=
    Function.update_self ..
  constructor
  case taken_le =>
    rw [List.length_append]
    exact h.taken_le.trans (Nat.le_add_right ..)
  case lt_fresh =>
    intro i c hi
    rcases hrch hi with ⟨-, hc⟩ | ⟨hi, -⟩
    · exact (hnew c hc).2.1
    · exact (h.lt_fresh hi).trans_le hfresh
  case pool_lt => exact fun hc => (h.pool_lt (hsub _ hc)).trans_le hfresh
  case pool_read =>
    intro c hc i hi
    rcases hrch hi with ⟨-, hc'⟩ | ⟨hi, hst⟩
    · exact absurd hc (hnew c hc').2.2.1
    · rw [hst]
      exact h.pool_read (hsub c hc) hi
  case pool_nodup => exact hpool
  case owner =>
    intro i c hi hr
    rcases hrch hi with ⟨rfl, hc⟩ | ⟨hi, hst⟩
    · exact (hnew c hc).1
    · rw [hst] at hr
      exact (howner c fun hc => hr ((hnew c hc).2.2.2 i hi)).trans (h.owner hi hr)
  case queued =>
    intro i c hi
    rcases hrch hi with ⟨rfl, -⟩ | ⟨hi, hst⟩
    · exact iff_of_true hself h.taken_le
    · rw [hst]
      exact h.queued hi
  case recent =>
    intro i c hi hr
    rcases hrch hi with ⟨rfl, -⟩ | ⟨hi, hst⟩
    · exact h.taken_le.trans (Nat.le_add_right ..)
    · rw [hst] at hr
      exact h.recent hi hr
  case waits =>
    intro tid c hw
    obtain ⟨i, hi, hst, htid⟩ := h.waits hw
    exact ⟨i, (hold hi).1, (hold hi).2.trans hst, htid⟩
  case held =>
    intro c r hh
    obtain ⟨i, hi, hst⟩ := h.held hh
    exact ⟨i, (hold hi).1, (hold hi).2.trans hst⟩
  case chans =>
    intro c r hh
    obtain ⟨i, hi, hst⟩ := h.chans hh
    exact ⟨i, (hold hi).1, (hold hi).2.trans hst⟩
  case waited =>
    intro i c hi hw
    rcases hrch hi with ⟨rfl, -⟩ | ⟨hi, hst⟩
    · rw [hself]
      exact id
    · rw [hst]
      exact h.waited hi hw
  case results =>
    intro i c hi
    rcases hrch hi with ⟨rfl, -⟩ | ⟨hi, hst⟩
    · rw [hself]
      exact h.results_none rch_length
    · rw [hst]
      exact h.results hi
  case results_none =>
    intro i hi
    by_cases h0 : s.rch i = none
    · exact h.results_none h0
    · obtain ⟨c, hc⟩ := Option.ne_none_iff_exists'.mp h0
      cases hi.symm.trans (hold hc).1
  case answers =>
    intro hP i c r hi hv
    rcases hrch hi with ⟨rfl, -⟩ | ⟨hi, hst⟩
    · rw [hself] at hv
      cases hv
    · rw [hst] at hv
      exact h.answers hP hi hv
  case replies => exact fun hm => ⟨(h.replies hm).1, (h.replies hm).2.mono ⟨_, rfl⟩⟩

/-- **`send`.** -/
theorem send (h : s.Tracks marshal P st) {mess : Message} {timeout : ℤ} {ch : ℕ} {s' : Broker}
    (hs' : s.next marshal (.send mess timeout ch) = some s') : ∃ st', s'.Tracks marshal P st' := by
  rw [next] at hs'
  obtain ⟨-, hs'⟩ := Option.ite_none_left_eq_some.mp hs'
  -- the channel of a request has no other request
  have hnew : ∀ {pool' : List ℕ} {fresh' : ℕ}, ch < fresh' → ch ∉ pool' →
      (∀ i, s.rch i = some ch → (st i).IsRead) → ∀ c, some ch = some c →
      Function.update s.owner ch s.sent.length c = s.sent.length ∧ c < fresh' ∧ c ∉ pool'
        ∧ ∀ i, s.rch i = some c → (st i).IsRead := by
    intro pool' fresh' hlt hnot hread c hc
    obtain rfl := Option.some.inj hc
    exact ⟨Function.update_self .., hlt, hnot, hread⟩
  have howner : ∀ c, some ch ≠ some c →
      Function.update s.owner ch s.sent.length c = s.owner c := fun c hc =>
    Function.update_of_ne (fun heq => hc (congrArg some heq.symm)) _ _
  split at hs'
  · exact ⟨_, h.snoc (Option.some.inj hs').symm h.pool_nodup (fun _ => id) le_rfl (fun _ _ => rfl)
      fun c hc => by cases hc⟩
  split at hs'
  · next hch =>
    exact ⟨_, h.snoc (Option.some.inj hs').symm (h.pool_nodup.erase ch)
      (fun c hc => List.mem_of_mem_erase hc) le_rfl howner
      (hnew (h.pool_lt hch) h.pool_nodup.not_mem_erase fun i hi => h.pool_read hch hi)⟩
  split at hs'
  · next hch =>
    subst hch
    exact ⟨_, h.snoc (Option.some.inj hs').symm h.pool_nodup (fun _ => id) (Nat.le_succ _) howner
      (hnew (Nat.lt_succ_self _) (fun hc => absurd (h.pool_lt hc) (lt_irrefl _))
        fun i hi => absurd (h.lt_fresh hi) (lt_irrefl _))⟩
  · cases hs'

/-- **A message is taken**, and gets its ID. -/
theorem take (h : s.Tracks marshal P st) {msg : BrokerMsg} (hget : s.sent[s.taken]? = some msg)
    (hbrief : ∀ i, s.Pending i → s.taken < i + 2 ^ 32) {w : UInt32 → Option ℕ}
    (hw : ∀ {tid c}, w tid = some c →
      (tid = UInt32.ofNat s.taken ∧ s.rch s.taken = some c) ∨ s.waits tid = some c) :
    ({ s with taken := s.taken + 1, waits := w } : Broker).Tracks marshal P
      (Function.update st s.taken .waiting) := by
  have hself : Function.update st s.taken .waiting s.taken = .waiting := Function.update_self ..
  -- the message was queued
  have hqueued : ∀ {c}, s.rch s.taken = some c → st s.taken = .queued := fun hi =>
    (h.queued hi).mpr le_rfl
  have hold : ∀ {i c x}, s.rch i = some c → st i = x → x ≠ .queued →
      Function.update st s.taken .waiting i = x := fun {i c x} hi hst hx => by
    rw [Function.update_of_ne, hst]
    rintro rfl
    exact hx (hst.symm.trans (hqueued hi))
  constructor
  case taken_le => exact (List.getElem?_eq_some_iff.mp hget).1
  case lt_fresh => exact h.lt_fresh
  case pool_lt => exact h.pool_lt
  case pool_nodup => exact h.pool_nodup
  case pool_read =>
    intro c hc i hi
    have hr := h.pool_read hc hi
    rwa [Function.update_of_ne]
    rintro rfl
    rw [hqueued hi] at hr
    exact hr
  case owner =>
    intro i c hi hr
    rcases eq_or_ne i s.taken with rfl | hne
    · exact h.owner hi (by rw [hqueued hi]; exact id)
    · rw [Function.update_of_ne hne] at hr
      exact h.owner hi hr
  case queued =>
    intro i c hi
    rcases eq_or_ne i s.taken with rfl | hne
    · rw [hself]
      exact iff_of_false (by simp) (Nat.not_succ_le_self _)
    · rw [Function.update_of_ne hne, h.queued hi]
      exact ⟨fun hle => Nat.succ_le_of_lt (lt_of_le_of_ne hle hne.symm), fun hle => by
        dsimp only at hle
        omega⟩
  case recent =>
    intro i c hi hr
    rcases eq_or_ne i s.taken with rfl | hne
    · dsimp only
      omega
    · rw [Function.update_of_ne hne] at hr
      refine hbrief i ⟨fun h0 => ?_, (h.results_eq hi rfl).trans hr⟩
      cases hi.symm.trans h0
  case waits =>
    intro tid c htid
    rcases hw htid with ⟨rfl, hi⟩ | htid
    · exact ⟨_, hi, hself, rfl⟩
    · obtain ⟨i, hi, hst, hid⟩ := h.waits htid
      exact ⟨i, hi, hold hi hst (by simp), hid⟩
  case held =>
    intro c r hh
    obtain ⟨i, hi, hst⟩ := h.held hh
    exact ⟨i, hi, hold hi hst (by simp)⟩
  case chans =>
    intro c r hh
    obtain ⟨i, hi, hst⟩ := h.chans hh
    exact ⟨i, hi, hold hi hst (by simp)⟩
  case waited =>
    intro i c hi hwaited
    rcases eq_or_ne i s.taken with rfl | hne
    · rw [hself]
      exact id
    · rw [Function.update_of_ne hne]
      exact h.waited hi hwaited
  case results =>
    intro i c hi
    rcases eq_or_ne i s.taken with rfl | hne
    · rw [hself]
      exact (h.results_eq hi (hqueued hi) : s.results s.taken = [])
    · rw [Function.update_of_ne hne]
      exact h.results hi
  case results_none => exact h.results_none
  case answers =>
    intro hP i c r hi hv
    rcases eq_or_ne i s.taken with rfl | hne
    · rw [hself] at hv
      cases hv
    · rw [Function.update_of_ne hne] at hv
      exact h.answers hP hi hv
  case replies => exact fun hm => ⟨(h.replies hm).1.trans (Nat.lt_succ_self _), (h.replies hm).2⟩

theorem register (h : s.Tracks marshal P st) {msg : BrokerMsg} (hget : s.sent[s.taken]? = some msg)
    (hbrief : ∀ i, s.Pending i → s.taken < i + 2 ^ 32) {s' : Broker}
    (hs' : s.register msg = some s') : ∃ st', s'.Tracks marshal P st' := by
  have hrch : s.rch s.taken = msg.rch := by
    rw [rch, hget]
    rfl
  rw [Broker.register] at hs'
  split at hs'
  · obtain ⟨ch, hch, rfl⟩ := Option.map_eq_some_iff.mp hs'
    refine ⟨_, h.take hget hbrief fun {tid c} hw => ?_⟩
    rcases eq_or_ne tid (UInt32.ofNat s.taken) with rfl | hne
    · rw [Function.update_self] at hw
      exact Or.inl ⟨rfl, hrch.trans (hch.trans hw)⟩
    · rw [Function.update_of_ne hne] at hw
      exact Or.inr hw
  · obtain ⟨-, hs'⟩ := Option.ite_none_right_eq_some.mp hs'
    obtain rfl := Option.some.inj hs'
    exact ⟨_, h.take hget hbrief Or.inr⟩

/-- **The server processes a message.** -/
theorem serve (h : s.Tracks marshal P st) {i : ℕ} {server : DBServer} {s' : Broker}
    (hs' : s.next marshal (.serve i server) = some s') : s'.Tracks marshal P st := by
  obtain ⟨hlt, hs'⟩ := Option.ite_none_right_eq_some.mp hs'
  obtain ⟨message, hwire, hs'⟩ := Option.bind_eq_some_iff.mp hs'
  obtain ⟨⟨response, server'⟩, hx, hs'⟩ := Option.bind_eq_some_iff.mp hs'
  obtain rfl := Option.some.inj hs'
  split
  · next htype =>
    refine { h with
      answers := fun hP {j c r} hj hv => ?_
      replies := fun {j m} hm => ?_ }
    · exact (h.answers hP hj hv).imp id fun ⟨m, hm, hr⟩ => ⟨m, List.mem_append_left _ hm, hr⟩
    · rcases List.mem_append.mp hm with hm | hm
      · exact h.replies hm
      · cases List.mem_singleton.mp hm
        exact ⟨hlt, message, hwire, server, server', Call.eq_ok_of_toOption hx, htype⟩
  · exact h

end Tracks

theorem tracks_new : new.Tracks marshal P fun _ => .queued where
  taken_le := le_rfl
  lt_fresh h := nomatch h
  pool_lt h := nomatch h
  pool_read h := nomatch h
  pool_nodup := List.nodup_nil
  owner h := nomatch h
  queued h := nomatch h
  recent h := nomatch h
  waits h := nomatch h
  held h := nomatch h
  chans h := nomatch h
  waited h := nomatch h
  results h := nomatch h
  results_none _ := rfl
  answers := fun _ {_ _ _} h => nomatch h
  replies h := nomatch h

end Broker

end Treeless
