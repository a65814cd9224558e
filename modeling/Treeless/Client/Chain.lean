import Treeless.Client.Client
import Treeless.Client.Replica
import Treeless.Machinery.History

/-!
# Client/Chain — clients that update one key by `Get` and `CAS`

Any number of clients read a key from its holders and swap it on the master.  Nothing is known of
when a message arrives, or whether it does: the requests that were sent stay in the system, and a
holder may take any of them at any time (or again).

    Get:   read (a holder) … read ──► finish ──► repair `Set`s
    CAS:   send ──► swap (on the master) ──► spread ──► `Set`s to the other holders

The swaps applied on the master form a chain: whatever a client has seen was written by one of them,
their timestamps rise, and so the timestamp a swap compares names one pair.
-/

namespace Treeless

namespace Client

/-- The holders of a key and the clients: each client knows the holders in an order of its own, and
the ranks of the holders are distinct. -/
structure Cluster (ι κ : Type) where
  key : Bytes
  phy : ι → Bytes
  order : κ → List ι
  complete : ∀ k i, i ∈ order k
  nodup : ∀ k, (order k).Nodup
  atMost : ∀ k, (order k).length ≤ 8
  distinct : Function.Injective fun i => rank key (phy i)

/-- A `CAS` request of a client to the holder it has elected. -/
structure Swap (ι κ : Type) where
  client : κ
  holder : ι
  basis : Basis
  new : Bytes
  deriving DecidableEq

structure State (ι κ : Type) where
  holder : ι → PMap
  /-- The replies a client has got to its `Get`. -/
  replies : κ → ι → Option Bytes
  /-- The pairs a client's `Get`s have returned. -/
  seen : κ → List Bytes
  /-- The `Set`s of the key that were sent, each to a holder. -/
  sets : List (ι × Bytes)
  /-- The `CAS`s that were sent. -/
  swaps : List (Swap ι κ)
  /-- The `CAS`s that were answered without an error, newest first. -/
  applied : List (Swap ι κ)

inductive Event (ι κ : Type)
  /-- A holder replies to the `Get` of a client. -/
  | read (k : κ) (i : ι)
  /-- The `Get` of a client returns. -/
  | finish (k : κ)
  /-- A client calls `CAS`. -/
  | send (k : κ) (basis : Basis) (new : Bytes)
  /-- A holder takes a `CAS`; its chunk may not be synced. -/
  | swap (a : Swap ι κ) (synced : Bool)
  /-- A client is told that its `CAS` has succeeded. -/
  | spread (a : Swap ι κ)
  /-- A holder takes a `Set` of the key. -/
  | set (i : ι) (value : Bytes)
  /-- A holder takes a request about another key. -/
  | other (i : ι) (op : Op)

variable {ι κ : Type}

section Step

variable [DecidableEq ι] [DecidableEq κ]

namespace State

variable (s : State ι κ)

/-- The pairs that were written, newest first. -/
def written : List Bytes := s.applied.map Swap.new

/-- The index of every holder can address its store. -/
def Addressed : Prop := ∀ i, (s.holder i).st.length ≤ 2 ^ 32

/-- A holder serves a request. -/
def serve (i : ι) (op : Op) : Option (Option Error × State ι κ) :=
  match (s.holder i).apply fnv1a64 op with
  | .ok (e, c) => some (e, { s with holder := Function.update s.holder i c })
  | .error _ => none

end State

/-- A client goes by a pair it has seen, or by nothing, and its clock is ahead of that. -/
def Advances (seen : List Bytes) (new : Bytes) : Basis → Prop
  | .pair v => v ∈ seen ∧ unixTime v < unixTime new
  -- the timestamp is zero, or what the zero time gives
  | .nothing stamp => stamp.length = 8 ∧ unixTime stamp ≤ 0 ∧ 0 < unixTime new

instance (seen : List Bytes) (new : Bytes) : DecidablePred (Advances seen new)
  | .pair _ => inferInstanceAs (Decidable (_ ∧ _))
  | .nothing _ => inferInstanceAs (Decidable (_ ∧ _ ∧ _))

namespace Cluster

variable (G : Cluster ι κ) (s : State ι κ)

/-- The rank of a holder. -/
def rankOf (i : ι) : UInt64 := rank G.key (G.phy i)

/-- A holder replies with what it has now. -/
def read (k : κ) (i : ι) : Option (State ι κ) :=
  match (s.holder i).get (fnv1a64 G.key).toUInt32 G.key with
  | .ok v =>
    let reply := Function.update (s.replies k) i v
    some { s with replies := Function.update s.replies k reply }
  | .error _ => none

/-- `Get` returns the latest reply, and sends it to the holders that are behind. -/
def finish (k : κ) : State ι κ :=
  let reply := s.replies k
  let s := { s with replies := Function.update s.replies k fun _ => none }
  match latest ((G.order k).map reply) with
  | none => s
  | some v =>
    { s with
      seen := Function.update s.seen k (v :: s.seen k)
      sets := (stale (G.order k) reply v).map (fun i => (i, v)) ++ s.sets }

/-- `CAS` elects a master, and sends it the request. -/
def send (k : κ) (basis : Basis) (new : Bytes) : Option (State ι κ) :=
  if 8 ≤ new.length ∧ Advances (s.seen k) new basis then
    match master G.rankOf (G.order k) with
    | some m => some { s with swaps := ⟨k, m, basis, new⟩ :: s.swaps }
    | none => none
  else none

/-- A holder compares and swaps, if its chunk is synced. -/
def swap (a : Swap ι κ) (synced : Bool) : Option (State ι κ) :=
  if a ∈ s.swaps then
    if synced then
      match s.serve a.holder (.cas G.key (casValue a.basis a.new)) with
      | some (none, s) => some { s with applied := a :: s.applied }
      | some (some _, s) => some s
      | none => none
    else some s
  else none

/-- After a `CAS` that has succeeded, the other holders get a `Set`. -/
def spread (a : Swap ι κ) : Option (State ι κ) :=
  if a ∈ s.applied then
    let slaves := (G.order a.client).filter fun i => decide (i ≠ a.holder)
    some { s with sets := slaves.map (fun i => (i, a.new)) ++ s.sets }
  else none

/-- A holder takes a `Set`. -/
def set (i : ι) (value : Bytes) : Option (State ι κ) :=
  if (i, value) ∈ s.sets then (s.serve i (.set G.key value)).map Prod.snd else none

/-- A holder takes a request about another key. -/
def other (i : ι) (op : Op) : Option (State ι κ) :=
  if op.key ≠ G.key ∧ op.Timed then (s.serve i op).map Prod.snd else none

/-- The state after an event, if it can happen. -/
def step : Event ι κ → Option (State ι κ)
  | .read k i => G.read s k i
  | .finish k => some (G.finish s k)
  | .send k basis new => G.send s k basis new
  | .swap a synced => G.swap s a synced
  | .spread a => G.spread s a
  | .set i value => G.set s i value
  | .other i op => G.other s i op

/-- An event that leaves every store within the bytes a 32-bit word addresses. -/
def Steps (s : State ι κ) (ev : Event ι κ) (s' : State ι κ) : Prop :=
  G.step s ev = some s' ∧ s'.Addressed

/-- Empty holders, and nothing sent. -/
def start (path : ι → String) (size : ι → ℕ) : State ι κ :=
  ⟨fun i => PMap.new (path i) (size i), fun _ _ => none, fun _ => [], [], [], []⟩

end Cluster

end Step

/-! ## The invariant

Everything in the system was written by a swap the master has applied. -/

section Invariant

variable (G : Cluster ι κ) (m : ι)

/-- Every pair on its way, and every pair on a holder, is one of `W`; the swaps go to `m`, and each
advances on a pair of `W`. -/
structure Sound (W : List Bytes) (s : State ι κ) : Prop where
  replica : ∀ i, (s.holder i).Replica G.key (· ∈ W)
  replies : ∀ {k i v}, s.replies k i = some v → v ∈ W
  seen : ∀ {k v}, v ∈ s.seen k → v ∈ W
  sets : ∀ {p}, p ∈ s.sets → p.2 ∈ W
  swaps : ∀ {a}, a ∈ s.swaps → a.holder = m ∧ 8 ≤ a.new.length ∧ Advances W a.new a.basis

/-- The swaps applied are a chain of rising timestamps, and the master has the last pair. -/
structure Inv (s : State ι κ) : Prop where
  sound : Sound G m s.written s
  sent : s.applied ⊆ s.swaps
  dated : ∀ v ∈ s.written, 8 ≤ v.length ∧ 0 < unixTime v
  rising : Rising unixTime s.written
  chained : Chained (fun a : Swap ι κ => a.basis.pair?) Swap.new s.applied
  master : (s.holder m).value G.key = current Swap.new s.applied

end Invariant

theorem Advances.mono {W W' : List Bytes} (hW : W ⊆ W') {new : Bytes} {basis : Basis}
    (h : Advances W new basis) : Advances W' new basis := by
  cases basis with
  | pair v => exact ⟨hW h.1, h.2⟩
  | nothing stamp => exact h

variable {G : Cluster ι κ} {m : ι} {s s' : State ι κ} {W : List Bytes}

/-- All the clients elect the holder of the largest rank. -/
theorem Cluster.elects (G : Cluster ι κ) (hm : ∀ j, G.rankOf j ≤ G.rankOf m) (k : κ) :
    master G.rankOf (G.order k) = some m :=
  master_eq G.distinct hm (G.complete k m)

theorem inv_start (path : ι → String) (size : ι → ℕ) :
    Inv G m (Cluster.start path size : State ι κ) where
  sound :=
    { replica := fun i => PMap.replica_new (path i) (size i)
      replies := nofun
      seen := nofun
      sets := nofun
      swaps := nofun }
  sent := List.Subset.refl _
  dated := nofun
  rising := List.Pairwise.nil
  chained := trivial
  master := congrFun (PMap.refines_new fnv1a64 (path m) (size m)).value_eq G.key

theorem Sound.mono (h : Sound G m W s) {W' : List Bytes} (hW : W ⊆ W') : Sound G m W' s where
  replica i := (h.replica i).mono fun _ hv => hW hv
  replies hv := hW (h.replies hv)
  seen hv := hW (h.seen hv)
  sets hp := hW (h.sets hp)
  swaps ha := ⟨(h.swaps ha).1, (h.swaps ha).2.1, (h.swaps ha).2.2.mono hW⟩

/-- What is left to show for an event that applies no swap. -/
theorem Inv.of_sound (h : Inv G m s) (hs : Sound G m s.written s') (happ : s'.applied = s.applied)
    (hsent : s.swaps ⊆ s'.swaps)
    (hmaster : (s'.holder m).value G.key = (s.holder m).value G.key) : Inv G m s' := by
  have hW : s'.written = s.written := congrArg (List.map Swap.new) happ
  exact ⟨hW ▸ hs, happ ▸ fun a ha => hsent (h.sent ha), hW ▸ h.dated, hW ▸ h.rising,
    happ ▸ h.chained, happ ▸ hmaster.trans h.master⟩

theorem Inv.send (hm : ∀ j, G.rankOf j ≤ G.rankOf m) (h : Inv G m s) {k : κ} {basis : Basis}
    {new : Bytes} (hx : G.send s k basis new = some s') : Inv G m s' := by
  unfold Cluster.send at hx
  rw [G.elects hm k] at hx
  split at hx
  · next hadv =>
    cases hx
    refine h.of_sound { h.sound with swaps := fun {a} ha => ?_ } rfl
      (List.subset_cons_self _ _) rfl
    rcases List.mem_cons.mp ha with rfl | hold
    · exact ⟨rfl, hadv.1, hadv.2.mono fun v hv => h.sound.seen hv⟩
    · exact h.sound.swaps hold
  · cases hx

/-- No pair that was written is later than the one the master has. -/
theorem Inv.step_set (h : Inv G m s) {v : Bytes} (hv : v ∈ s.written) (e : Option Error) :
    Dict.step (s.holder m).value (.set G.key v, e) G.key = (s.holder m).value G.key := by
  cases e with
  | some e => rfl
  | none =>
    obtain ⟨a, rest, happ⟩ : ∃ a rest, s.applied = a :: rest :=
      List.exists_cons_of_ne_nil fun hnil => by
        rw [State.written, hnil] at hv
        cases hv
    have hrising := h.rising
    rw [State.written, happ] at hv hrising
    have hmaster : (s.holder m).value G.key = some a.new := by
      rw [h.master, happ]
      rfl
    simp only [Dict.step, hmaster]
    rw [if_neg (not_lt.mpr (hrising.le_head hv)), hmaster]

theorem Inv.length_stamp (h : Inv G m s) {basis : Basis} {new : Bytes}
    (hadv : Advances s.written new basis) : basis.stamp.length = 8 := by
  cases basis with
  | pair v => exact List.length_take_of_le (h.dated v hadv.1).1
  | nothing stamp => exact hadv.1

/-- **A `CAS` that passes its tests goes by the pair the master has.** -/
theorem Inv.link (h : Inv G m s) {basis : Basis} {new : Bytes} (hadv : Advances s.written new basis)
    (htest : Ledger.casTest ((s.holder m).value G.key) (casValue basis new) = none) :
    basis.pair? = current Swap.new s.applied := by
  have hstamp : basis.stamp.length = 8 := h.length_stamp hadv
  rw [h.master] at htest
  have hdated := h.dated
  have hrising := h.rising
  rw [State.written] at hadv hdated hrising
  generalize s.applied = swaps at hadv hdated hrising htest ⊢
  cases swaps with
  | nil =>
    cases basis with
    | pair v => exact nomatch hadv.1
    | nothing stamp => rfl
  | cons a rest =>
    have htime : unixTime a.new = unixTime basis.stamp :=
      (Ledger.unixTime_of_casTest htest).trans (unixTime_casValue hstamp)
    cases basis with
    | pair v =>
      have hv : unixTime v = unixTime a.new := (unixTime_take v).symm.trans htime.symm
      exact congrArg some (hrising.eq_head hadv.1 hv)
    | nothing stamp =>
      -- a timestamp that was written is positive
      have hpos : 0 < unixTime stamp := htime ▸ (hdated a.new List.mem_cons_self).2
      exact absurd hadv.2.1 (not_le.mpr hpos)

/-- **A swap that goes by the last pair is later than all of them.** -/
theorem Inv.rising_cons (h : Inv G m s) {basis : Basis} {new : Bytes}
    (hadv : Advances s.written new basis) (hlink : basis.pair? = current Swap.new s.applied) :
    Rising unixTime (new :: s.written) := by
  refine h.rising.cons fun v hv => ?_
  rw [State.written, List.head?_map] at hv
  cases basis with
  | pair v' =>
    obtain rfl : v' = v := Option.some.inj (hlink.trans hv)
    exact hadv.2
  | nothing stamp => exact nomatch hlink.trans hv

theorem Inv.time_pos (h : Inv G m s) {basis : Basis} {new : Bytes}
    (hadv : Advances s.written new basis) : 0 < unixTime new := by
  cases basis with
  | pair v => exact (h.dated v hadv.1).2.trans hadv.2
  | nothing stamp => exact hadv.2.2

variable [DecidableEq ι]

/-- **A holder serves a request** that writes a pair of `W`, if it writes under the key. -/
theorem Sound.serve (h : Sound G m W s) {i : ι} {op : Op} (hop : op.Timed) {e : Option Error}
    (hx : s.serve i op = some (e, s')) (haddr : s'.Addressed)
    (hW : e = none → op.key = G.key → op.record.val ∈ W) :
    Sound G m W s' ∧ s' = { s with holder := s'.holder }
      ∧ (∀ j, (s'.holder j).value = if j = i then Dict.step (s.holder i).value (op, e)
          else (s.holder j).value)
      ∧ ∀ k v, op = .cas k v → e = none → Ledger.casTest ((s.holder i).value k) v = none := by
  unfold State.serve at hx
  split at hx
  · next e' c hc =>
    cases hx
    have hlen : c.st.length ≤ 2 ^ 32 := by
      have hi := haddr i
      dsimp only at hi
      rwa [Function.update_self] at hi
    obtain ⟨hrep, hval, htest⟩ := (h.replica i).apply ⟨hop, hc, hlen⟩ hW
    refine ⟨{ h with replica := fun j => ?_ }, rfl, fun j => ?_, htest⟩
    · dsimp only
      rw [Function.update_apply]
      split
      · exact hrep
      · exact h.replica j
    · dsimp only
      rw [Function.update_apply, apply_ite PMap.value, hval]
  · cases hx

/-- **A request that does not change the master's pair** keeps the invariant. -/
theorem Inv.serve (h : Inv G m s) {i : ι} {op : Op} (hop : op.Timed) {e : Option Error}
    (hx : s.serve i op = some (e, s')) (haddr : s'.Addressed)
    (hW : e = none → op.key = G.key → op.record.val ∈ s.written)
    (hkeep : Dict.step (s.holder m).value (op, e) G.key = (s.holder m).value G.key) :
    Inv G m s' ∧ (s'.holder m).value G.key = (s.holder m).value G.key := by
  obtain ⟨hsound, hs, hval, -⟩ := h.sound.serve hop hx haddr hW
  have hmaster : (s'.holder m).value G.key = (s.holder m).value G.key := by
    rw [hval]
    split
    · next hi => rw [← hi, hkeep]
    · rfl
  refine ⟨?_, hmaster⟩
  rw [hs]
  exact h.of_sound (hs ▸ hsound) rfl (List.Subset.refl _) hmaster

theorem Inv.other (h : Inv G m s) {i : ι} {op : Op} (hx : G.other s i op = some s')
    (haddr : s'.Addressed) : Inv G m s' := by
  unfold Cluster.other at hx
  split at hx
  · next hop =>
    obtain ⟨⟨e, s₁⟩, hserve, rfl⟩ := Option.map_eq_some_iff.mp hx
    exact (h.serve hop.2 hserve haddr (fun _ hk => absurd hk hop.1)
      (Dict.step_of_ne _ _ (Ne.symm hop.1))).1
  · cases hx

/-- **A `Set` leaves the master's pair as it is.** -/
theorem Inv.set (h : Inv G m s) {i : ι} {v : Bytes} (hx : G.set s i v = some s')
    (haddr : s'.Addressed) : Inv G m s' ∧ (s'.holder m).value G.key = (s.holder m).value G.key := by
  unfold Cluster.set at hx
  split at hx
  · next hmem =>
    have hv : v ∈ s.written := h.sound.sets hmem
    have hop : (Op.set G.key v).Timed := trivial
    obtain ⟨⟨e, s₁⟩, hserve, rfl⟩ := Option.map_eq_some_iff.mp hx
    exact h.serve hop hserve haddr (fun _ _ => hv) (h.step_set hv e)
  · cases hx

/-- **A `CAS` that the master applies extends the chain.** -/
theorem Inv.applies (h : Inv G m s) {a : Swap ι κ} (ha : a ∈ s.swaps)
    (hserve : s.serve a.holder (.cas G.key (casValue a.basis a.new)) = some (none, s'))
    (haddr : s'.Addressed) : Inv G m { s' with applied := a :: s'.applied } := by
  obtain ⟨rfl, hlen, hadv⟩ := h.sound.swaps ha
  have hdrop : (casValue a.basis a.new).drop 16 = a.new := drop_casValue (h.length_stamp hadv)
  have hW : (Op.cas G.key (casValue a.basis a.new)).record.val ∈ a.new :: s.written :=
    List.mem_cons.mpr (Or.inl hdrop)
  have hop : (Op.cas G.key (casValue a.basis a.new)).Timed := trivial
  obtain ⟨hsound, hs, hval, htest⟩ :=
    (h.sound.mono (List.subset_cons_self a.new _)).serve hop hserve haddr fun _ _ => hW
  have hlink : a.basis.pair? = current Swap.new s.applied := h.link hadv (htest _ _ rfl rfl)
  rw [hs] at hsound ⊢
  exact
    { sound := { hsound with }
      sent := List.cons_subset.mpr ⟨ha, h.sent⟩
      dated := List.forall_mem_cons.mpr ⟨⟨hlen, h.time_pos hadv⟩, h.dated⟩
      rising := h.rising_cons hadv hlink
      chained := ⟨hlink, h.chained⟩
      master := by
        dsimp only
        rw [hval, if_pos rfl, Dict.step, Function.update_self, hdrop]
        rfl }

variable [DecidableEq κ]

theorem Inv.read (h : Inv G m s) {k : κ} {i : ι} (hx : G.read s k i = some s') : Inv G m s' := by
  unfold Cluster.read at hx
  split at hx
  · next v hget =>
    cases hx
    refine h.of_sound { h.sound with replies := fun {k' i' v'} hv => ?_ } rfl
      (List.Subset.refl _) rfl
    dsimp only at hv
    rw [Function.update_apply] at hv
    split at hv
    · rw [Function.update_apply] at hv
      split at hv
      · exact (h.sound.replica i).of_get (hget.trans (congrArg _ hv))
      · exact h.sound.replies hv
    · exact h.sound.replies hv
  · cases hx

omit [DecidableEq ι] in
theorem Inv.finish (h : Inv G m s) (k : κ) : Inv G m (G.finish s k) := by
  have hreplies : ∀ {k' : κ} {i : ι} {v : Bytes},
      Function.update s.replies k (fun _ => none) k' i = some v → v ∈ s.written := by
    intro k' i v hv
    rw [Function.update_apply] at hv
    split at hv
    · cases hv
    · exact h.sound.replies hv
  unfold Cluster.finish
  dsimp only
  split
  · exact h.of_sound { h.sound with replies := hreplies } rfl (List.Subset.refl _) rfl
  · next v hlatest =>
    obtain ⟨i, -, hi⟩ := List.mem_map.mp (mem_of_latest hlatest)
    have hv : v ∈ s.written := h.sound.replies hi
    refine h.of_sound { h.sound with
      replies := hreplies
      seen := fun {k' v'} hv' => ?_
      sets := fun {p} hp => ?_ } rfl (List.Subset.refl _) rfl
    · dsimp only at hv'
      rw [Function.update_apply] at hv'
      split at hv'
      · rcases List.mem_cons.mp hv' with rfl | hold
        · exact hv
        · exact h.sound.seen hold
      · exact h.sound.seen hv'
    · rcases List.mem_append.mp hp with hnew | hold
      · obtain ⟨j, -, rfl⟩ := List.mem_map.mp hnew
        exact hv
      · exact h.sound.sets hold

theorem Inv.spread (h : Inv G m s) {a : Swap ι κ} (hx : G.spread s a = some s') : Inv G m s' := by
  unfold Cluster.spread at hx
  split at hx
  · next ha =>
    cases hx
    refine h.of_sound { h.sound with sets := fun {p} hp => ?_ } rfl (List.Subset.refl _) rfl
    rcases List.mem_append.mp hp with hnew | hold
    · obtain ⟨j, -, rfl⟩ := List.mem_map.mp hnew
      exact List.mem_map_of_mem ha
    · exact h.sound.sets hold
  · cases hx

theorem Inv.swap (h : Inv G m s) {a : Swap ι κ} {synced : Bool}
    (hx : G.swap s a synced = some s') (haddr : s'.Addressed) : Inv G m s' := by
  unfold Cluster.swap at hx
  split at hx
  · next ha =>
    split at hx
    · split at hx
      · next s₁ hserve =>
        cases hx
        exact h.applies ha hserve haddr
      · next e s₁ hserve =>
        cases hx
        have hop : (Op.cas G.key (casValue a.basis a.new)).Timed := trivial
        exact (h.serve hop hserve haddr nofun rfl).1
      · cases hx
    · cases hx
      exact h
  · cases hx

/-- **Every event keeps the invariant.** -/
theorem Inv.step (hm : ∀ j, G.rankOf j ≤ G.rankOf m) (h : Inv G m s) {ev : Event ι κ}
    (hs : G.Steps s ev s') : Inv G m s' := by
  obtain ⟨hx, haddr⟩ := hs
  cases ev with
  | read k i => exact h.read hx
  | finish k => exact Option.some.inj hx ▸ h.finish k
  | send k basis new => exact h.send hm hx
  | swap a synced => exact h.swap hx haddr
  | spread a => exact h.spread hx
  | set i value => exact (h.set hx haddr).1
  | other i op => exact h.other hx haddr

/-! ## No update is lost -/

/-- **No update is lost.**  After any events, all the clients elect the same master; the swaps that
were applied were applied there, each by the pair the one before it has written, and the master has
the last; a `Set` changes nothing there; and if the clients count up, the master has their count. -/
theorem no_lost_update (G : Cluster ι κ) {m : ι} (hm : ∀ j, G.rankOf j ≤ G.rankOf m)
    {path : ι → String} {size : ι → ℕ} {evs : List (Event ι κ)} {s : State ι κ}
    (hrun : Run G.Steps (Cluster.start path size) evs s) :
    (∀ k, master G.rankOf (G.order k) = some m)
      ∧ (∀ a ∈ s.applied, a ∈ s.swaps ∧ a.holder = m)
      ∧ Chained (fun a : Swap ι κ => a.basis.pair?) Swap.new s.applied
      ∧ (s.holder m).value G.key = current Swap.new s.applied
      ∧ (∀ i v s', G.Steps s (.set i v) s' →
          (s'.holder m).value G.key = (s.holder m).value G.key)
      ∧ ∀ (count : Bytes → ℕ) (start : ℕ),
          (∀ a ∈ s.swaps, a.basis.pair? = none → count a.new = start) →
          (∀ a ∈ s.swaps, ∀ v, a.basis.pair? = some v → count a.new = count v + 1) →
          ∀ v, (s.holder m).value G.key = some v → count v + 1 = start + s.applied.length := by
  have h : Inv G m s := hrun.invariant (fun hi hx => hi.step hm hx) (inv_start path size)
  refine ⟨G.elects hm, fun a ha => ⟨h.sent ha, (h.sound.swaps (h.sent ha)).1⟩, h.chained, h.master,
    fun i v s' hx => (h.set hx.1 hx.2).2, fun count start hfirst hnext v hv => ?_⟩
  exact h.chained.count (fun a ha => hfirst a (h.sent ha)) (fun a ha => hnext a (h.sent ha)) v
    (h.master.symm.trans hv)

/-- The state after an event, if it leaves every store within what its index addresses. -/
def Cluster.next {n : ℕ} (G : Cluster (Fin n) κ) (s : State (Fin n) κ) (ev : Event (Fin n) κ) :
    Option (State (Fin n) κ) :=
  (G.step s ev).filter fun s' => ∀ i, (s'.holder i).st.length ≤ 2 ^ 32

theorem Cluster.steps_of_next {n : ℕ} {G : Cluster (Fin n) κ} {s s' : State (Fin n) κ}
    {ev : Event (Fin n) κ} (h : G.next s ev = some s') : G.Steps s ev s' := by
  obtain ⟨hx, haddr⟩ := Option.filter_eq_some_iff.mp h
  have haddr : ∀ i, (s'.holder i).st.length ≤ 2 ^ 32 := of_decide_eq_true haddr
  exact ⟨hx, haddr⟩

/-- Two holders that two clients know in opposite orders. -/
def twoHolders : Cluster (Fin 2) (Fin 2) where
  key := [7]
  phy i := [i.val.toUInt8]
  order k := if k = 0 then [0, 1] else [1, 0]
  complete := by decide
  nodup := by decide
  atMost := by decide
  distinct := fun i j => (by decide +kernel : ∀ i j : Fin 2,
    rank [7] [i.val.toUInt8] = rank [7] [j.val.toUInt8] → i = j) i j

/-- A pair of a timestamp and a counter. -/
def counterPair (time n : ℕ) : Bytes := leBytes 8 time ++ [n.toUInt8]

/-- The counter of a pair. -/
def counter (v : Bytes) : ℕ := ((v.drop 8).headD 0).toNat

/-- The first write of the counter, and a step of each client from it. -/
def firstSwap : Swap (Fin 2) (Fin 2) := ⟨0, 1, .nothing (leBytes 8 0), counterPair 10 0⟩

def nextSwap (k : Fin 2) (time : ℕ) : Swap (Fin 2) (Fin 2) :=
  ⟨k, 1, .pair (counterPair 10 0), counterPair time 1⟩

/-- A client writes the counter, and both count up from it: the second is served first.  The repairs
of two `Get`s come late, one of them to the master. -/
def twoClients : List (Event (Fin 2) (Fin 2)) :=
  [.send 0 firstSwap.basis firstSwap.new, .swap firstSwap true,
    .read 0 1, .finish 0, .read 1 1, .finish 1,
    .send 0 (nextSwap 0 20).basis (nextSwap 0 20).new,
    .send 1 (nextSwap 1 21).basis (nextSwap 1 21).new,
    .swap (nextSwap 1 21) true, .swap (nextSwap 0 20) true, .spread (nextSwap 1 21),
    .set 0 (counterPair 10 0), .read 0 0, .finish 0, .set 1 (counterPair 10 0),
    .set 0 (counterPair 21 1)]

/-- The second step of the counter is refused, and the master has the first. -/
theorem no_lost_update_two_clients : ∃ s,
    Run twoHolders.Steps (Cluster.start (fun _ => "") fun _ => 200) twoClients s
      ∧ s.applied = [nextSwap 1 21, firstSwap]
      ∧ (s.holder 1).value [7] = some (counterPair 21 1)
      ∧ counter (counterPair 21 1) + 1 = 0 + s.applied.length := by
  obtain ⟨s, hs, hobs⟩ : ∃ s, twoClients.foldlM twoHolders.next
      (Cluster.start (fun _ => "") fun _ => 200) = some s
      ∧ (s.applied, s.swaps) = ([nextSwap 1 21, firstSwap],
          [nextSwap 1 21, nextSwap 0 20, firstSwap]) :=
    Option.map_eq_some_iff.mp (by decide +kernel)
  obtain ⟨happ, hswaps⟩ := Prod.mk.inj hobs
  have hrun : Run twoHolders.Steps _ _ s := (Run.of_foldlM hs).mono Cluster.steps_of_next
  have hm : ∀ j, twoHolders.rankOf j ≤ twoHolders.rankOf 1 := by decide +kernel
  obtain ⟨-, -, -, hmaster, -, hcount⟩ :=
    no_lost_update twoHolders hm hrun
  rw [happ] at hmaster
  refine ⟨s, hrun, happ, hmaster, hcount counter 0 ?_ ?_ _ hmaster⟩
  · rw [hswaps]
    decide
  · rw [hswaps]
    exact List.forall_mem_cons.mpr ⟨fun v hv => Option.some.inj hv ▸ by decide,
      List.forall_mem_cons.mpr ⟨fun v hv => Option.some.inj hv ▸ by decide,
        List.forall_mem_singleton.mpr nofun⟩⟩

end Client

end Treeless
