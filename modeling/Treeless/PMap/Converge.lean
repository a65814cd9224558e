import Treeless.Machinery.Register
import Treeless.PMap.Runs

/-!
# PMap/Converge — the same requests in two orders

Under `Set` and `Del` each key of a `PMap` is a register where the newest write wins
(`value_of_served`).  `Set`s alone converge up to ties: of two values with one timestamp the first
to arrive stays.  A `Del` leaves nothing for a late older `Set` to lose against, so what a `PMap`
keeps of a key is the newest `Set` that only older requests follow.
-/

namespace Treeless

open Register (Req Survives Spares)

namespace Op

/-- The time a request carries. -/
def time : Op → Time
  | set _ v => unixTime v
  | cas _ v => unixTime (v.drop 16)
  | del _ v => unixTime v

/-- A `Set` or a `Del`. -/
def IsWrite : Op → Prop
  | cas _ _ => False
  | _ => True

/-- A `Set`. -/
def IsSet : Op → Prop
  | set _ _ => True
  | _ => False

/-- What a request asks of the register of a key. -/
def req (key : Bytes) : Op → Option (Req Bytes Time)
  | set k v => if k = key then some (.put v) else none
  | del k v => if k = key then some (.remove (unixTime v)) else none
  | cas _ _ => none

theorem req_eq_put {key v : Bytes} {op : Op} : op.req key = some (.put v) ↔ op = .set key v := by
  cases op with
  | set k w =>
    by_cases hk : k = key
    · simp [req, hk]
    · simp [req, hk]
  | cas k w => simp [req]
  | del k w =>
    by_cases hk : k = key
    · simp [req, hk]
    · simp [req, hk]

end Op

/-- What a list of requests asks of the register of a key. -/
def reqs (key : Bytes) (ops : List Op) : List (Req Bytes Time) := ops.filterMap (Op.req key)

theorem put_mem_reqs {key v : Bytes} {ops : List Op} :
    Req.put v ∈ reqs key ops ↔ Op.set key v ∈ ops := by
  simp only [reqs, List.mem_filterMap, Op.req_eq_put, exists_eq_right]

/-- An accepted request, seen from the register of a key. -/
theorem Dict.step_apply (m : Dict) {op : Op} (hop : op.IsWrite) (key : Bytes) :
    m.step (op, none) key = (op.req key).elim (m key) (Register.step unixTime (m key)) := by
  cases op with
  | set k v =>
    by_cases hk : k = key
    · subst hk
      simp only [Dict.step, Op.req, if_true, Option.elim_some]
      cases hm : m k with
      | none => exact Function.update_self _ _ _
      | some o =>
        simp only [Register.step]
        split
        · exact Function.update_self _ _ _
        · exact hm
    · rw [m.step_of_ne none (show key ≠ k from Ne.symm hk), Op.req, if_neg hk, Option.elim_none]
  | cas k v => exact absurd hop id
  | del k v =>
    by_cases hk : k = key
    · subst hk
      simp only [Dict.step, Op.req, if_true, Option.elim_some]
      cases hm : m k with
      | none => exact hm
      | some o =>
        simp only [Register.step]
        split
        · exact hm
        · exact Function.update_self _ _ _
    · rw [m.step_of_ne none (show key ≠ k from Ne.symm hk), Op.req, if_neg hk, Option.elim_none]

theorem foldl_step_apply (key : Bytes) : ∀ {ops : List Op} (m : Dict), (∀ op ∈ ops, op.IsWrite) →
    (ops.map fun op => (op, none)).foldl Dict.step m key
      = (reqs key ops).foldl (Register.step unixTime) (m key)
  | [], _, _ => rfl
  | op :: ops, m, hops => by
      have hrest : ∀ o ∈ ops, o.IsWrite := fun o ho => hops o (List.mem_cons_of_mem _ ho)
      rw [List.map_cons, List.foldl_cons, foldl_step_apply key _ hrest,
        Dict.step_apply m (hops op List.mem_cons_self) key, reqs, reqs]
      cases hr : op.req key with
      | none => rw [List.filterMap_cons_none hr, Option.elim_none]
      | some r => rw [List.filterMap_cons_some hr, Option.elim_some, List.foldl_cons]

namespace PMap

variable {hash : Bytes → UInt64} {path path₁ path₂ : String} {size size₁ size₂ : ℕ}
  {c c₁ c₂ : PMap} {ops ops₁ ops₂ : List Op}

/-- `c` is a fresh `PMap` that accepted the requests `ops`, in this order. -/
def Served (hash : Bytes → UInt64) (path : String) (size : ℕ) (ops : List Op) (c : PMap) : Prop :=
  Run (Step hash) (new path size) (ops.map fun op => (op, none)) c

/-- Requests that are all accepted, when served. -/
theorem exists_served (hash : Bytes → UInt64) (path : String) (size : ℕ) (hsize : size ≤ 2 ^ 32)
    (ops : List Op) (hops : ∀ op ∈ ops, op.Timed)
    (h : ((new path size).exec hash ops).map Prod.fst = .ok (ops.map fun op => (op, none))) :
    ∃ c, Served hash path size ops c := by
  obtain ⟨⟨evs, c⟩, hex, rfl⟩ := Call.map_eq_ok.mp h
  exact ⟨c, run_step hsize (run_of_exec hops hex) (refines_new hash path size) rfl⟩

/-- **Each key is a register.** -/
theorem value_of_served (hops : ∀ op ∈ ops, op.IsWrite) (h : Served hash path size ops c)
    (key : Bytes) : c.value key = Register.run unixTime (reqs key ops) := by
  rw [(refines_run h).value_eq, Ledger.dict_run]
  exact foldl_step_apply key _ hops

/-! ## `Set`s alone -/

/-- A `Set` of `v` is among the requests for the key, and none is newer. -/
def Newest (ops : List Op) (key v : Bytes) : Prop :=
  .set key v ∈ ops ∧ ∀ w, .set key w ∈ ops → unixTime w ≤ unixTime v

/-- A `Set` of `v` is the first of the newest requests for the key. -/
def FirstNewest (ops : List Op) (key v : Bytes) : Prop :=
  Newest ops key v ∧ ∃ pre post, ops = pre ++ .set key v :: post
    ∧ ∀ w, .set key w ∈ pre → unixTime w < unixTime v

theorem isWrite_of_isSet {op : Op} (h : op.IsSet) : op.IsWrite := by
  cases op with
  | set k v => trivial
  | cas k v => exact h
  | del k v => trivial

/-- The `Set` that a `put` of a key's register comes from, with what comes before it. -/
theorem split_of_reqs {key v : Bytes} {pre' post' : List (Req Bytes Time)}
    (h : reqs key ops = pre' ++ .put v :: post') :
    ∃ pre post, ops = pre ++ .set key v :: post ∧ reqs key pre = pre' ∧ reqs key post = post' := by
  obtain ⟨l₁, l₂, rfl, rfl, hl₂⟩ := List.filterMap_eq_append_iff.mp h
  obtain ⟨m₁, a, m₂, rfl, hm₁, ha, rfl⟩ := List.filterMap_eq_cons_iff.mp hl₂
  obtain rfl := Op.req_eq_put.mp ha
  refine ⟨l₁ ++ m₁, m₂, (List.append_assoc ..).symm, ?_, rfl⟩
  rw [reqs, List.filterMap_append, List.filterMap_eq_nil_iff.mpr hm₁, List.append_nil]

/-- **With `Set`s alone, a `PMap` keeps the first of the newest values** of every key that was
set. -/
theorem newest_of_served (hops : ∀ op ∈ ops, op.IsSet) (h : Served hash path size ops c)
    (key : Bytes) : (∀ v, c.value key = some v → FirstNewest ops key v)
      ∧ (∀ v, .set key v ∈ ops → ∃ u, c.value key = some u) := by
  rw [value_of_served (fun op hop => isWrite_of_isSet (hops op hop)) h]
  -- every request is a `put`, so a newest one survives
  have hput : ∀ r ∈ reqs key ops, ∃ w, r = .put w := fun r hr => by
    obtain ⟨op, hop, hreq⟩ := List.mem_filterMap.mp hr
    cases op with
    | set k w =>
      obtain ⟨rfl, hrw⟩ := Option.ite_none_right_eq_some.mp hreq
      exact ⟨w, (Option.some.inj hrw).symm⟩
    | cas k w => exact absurd (hops _ hop) id
    | del k w => exact absurd (hops _ hop) id
  constructor
  · intro v hv
    obtain ⟨pre', post', hsplit, hpre⟩ := Register.first_of_run hput hv
    obtain ⟨pre, post, hops', hreqs, -⟩ := split_of_reqs hsplit
    refine ⟨⟨?_, fun w hw => Register.le_of_put hput hv (put_mem_reqs.mpr hw)⟩, pre, post, hops',
      fun w hw => hpre w (hreqs ▸ put_mem_reqs.mpr hw)⟩
    rw [hops']
    exact List.mem_append_right _ List.mem_cons_self
  · intro v hv
    obtain ⟨u, hu, -⟩ := Register.exists_survivor hput (put_mem_reqs.mpr hv)
    exact Register.exists_run_of_survives hu

/-- **`Set`s converge up to ties.**  Two fresh `PMap`s that accepted the same `Set`s, each at least
once and in any order, have the same keys with the same timestamps, and the same value of every key
whose newest requests carry one value.  Of the newest requests of a key each `PMap` keeps the one
that it got first. -/
theorem sets_converge (hops : ∀ op ∈ ops₁, op.IsSet) (hsame : ∀ op, op ∈ ops₁ ↔ op ∈ ops₂)
    (h₁ : Served hash path₁ size₁ ops₁ c₁) (h₂ : Served hash path₂ size₂ ops₂ c₂) (key : Bytes) :
    (c₁.value key).map unixTime = (c₂.value key).map unixTime
      ∧ ((∀ v w, Newest ops₁ key v → Newest ops₁ key w → v = w) → c₁.value key = c₂.value key)
      ∧ (∀ v, c₁.value key = some v → FirstNewest ops₁ key v)
      ∧ ∀ v, c₂.value key = some v → FirstNewest ops₂ key v := by
  obtain ⟨hnew₁, hex₁⟩ := newest_of_served hops h₁ key
  obtain ⟨hnew₂, hex₂⟩ := newest_of_served (fun op hop => hops op ((hsame op).mpr hop)) h₂ key
  have hnewest : ∀ v, Newest ops₂ key v → Newest ops₁ key v := fun v hv =>
    ⟨(hsame _).mpr hv.1, fun w hw => hv.2 w ((hsame _).mp hw)⟩
  rw [← and_assoc]
  refine ⟨?_, hnew₁, hnew₂⟩
  cases hv₁ : c₁.value key with
  | none =>
    cases hv₂ : c₂.value key with
    | none => exact ⟨rfl, fun _ => rfl⟩
    | some v =>
      obtain ⟨u, hu⟩ := hex₁ v (hnewest v (hnew₂ v hv₂).1).1
      cases hu.symm.trans hv₁
  | some v =>
    obtain ⟨u, hu⟩ := hex₂ v ((hsame _).mp (hnew₁ v hv₁).1.1)
    have hv := (hnew₁ v hv₁).1
    have hu' := hnewest u (hnew₂ u hu).1
    rw [hu]
    exact ⟨congrArg some (le_antisymm (hu'.2 v hv.1) (hv.2 u hu'.1)),
      fun huniq => congrArg some (huniq v u hv hu')⟩

/-- Two keys: the newer value of one comes last in one order and in the middle of the other; the
values of the other key tie, and come in opposite orders. -/
theorem sets_converge_two_orders : ∃ c₁ c₂,
    Served fnv1a64 "" 100 [.set [1] (stamped 5 [7]), .set [2] (stamped 5 [9]),
      .set [2] (stamped 5 [4]), .set [1] (stamped 6 [8])] c₁
    ∧ Served fnv1a64 "" 100 [.set [2] (stamped 5 [4]), .set [1] (stamped 6 [8]),
      .set [1] (stamped 5 [7]), .set [2] (stamped 5 [9])] c₂
    ∧ (∀ key, (c₁.value key).map unixTime = (c₂.value key).map unixTime)
    ∧ (∀ v, c₁.value [2] = some v → FirstNewest [.set [1] (stamped 5 [7]),
      .set [2] (stamped 5 [9]), .set [2] (stamped 5 [4]), .set [1] (stamped 6 [8])] [2] v)
    ∧ ∀ v, c₂.value [2] = some v → FirstNewest [.set [2] (stamped 5 [4]),
      .set [1] (stamped 6 [8]), .set [1] (stamped 5 [7]), .set [2] (stamped 5 [9])] [2] v := by
  obtain ⟨c₁, h₁⟩ := exists_served fnv1a64 "" 100 (by decide) [.set [1] (stamped 5 [7]),
    .set [2] (stamped 5 [9]), .set [2] (stamped 5 [4]), .set [1] (stamped 6 [8])] (by decide)
    (by decide +kernel)
  obtain ⟨c₂, h₂⟩ := exists_served fnv1a64 "" 100 (by decide) [.set [2] (stamped 5 [4]),
    .set [1] (stamped 6 [8]), .set [1] (stamped 5 [7]), .set [2] (stamped 5 [9])] (by decide)
    (by decide +kernel)
  have hconv := sets_converge (by simp [Op.IsSet]) (fun op => by
    simp only [List.mem_cons, List.not_mem_nil, or_false]
    tauto) h₁ h₂
  exact ⟨c₁, c₂, h₁, h₂, fun key => (hconv key).1, (hconv [2]).2.2⟩

/-- Two values with one timestamp: each order keeps the one that came first. -/
theorem sets_tie_diverges : ∃ c₁ c₂,
    Served fnv1a64 "" 100 [.set [1] (stamped 5 [7]), .set [1] (stamped 5 [8])] c₁
    ∧ Served fnv1a64 "" 100 [.set [1] (stamped 5 [8]), .set [1] (stamped 5 [7])] c₂
    ∧ c₁.value [1] = some (stamped 5 [7]) ∧ c₂.value [1] = some (stamped 5 [8]) := by
  obtain ⟨c₁, h₁⟩ := exists_served fnv1a64 "" 100 (by decide)
    [.set [1] (stamped 5 [7]), .set [1] (stamped 5 [8])] (by decide) (by decide +kernel)
  obtain ⟨c₂, h₂⟩ := exists_served fnv1a64 "" 100 (by decide)
    [.set [1] (stamped 5 [8]), .set [1] (stamped 5 [7])] (by decide) (by decide +kernel)
  refine ⟨c₁, c₂, h₁, h₂, ?_, ?_⟩
  · rw [(refines_run h₁).value_eq, Ledger.dict_run]
    decide +kernel
  · rw [(refines_run h₂).value_eq, Ledger.dict_run]
    decide +kernel

/-! ## `Set`s and `Del`s -/

/-- Some `Set` of `v` is followed by older requests of the key only. -/
def Outlives (ops : List Op) (key v : Bytes) : Prop :=
  ∃ pre post, ops = pre ++ .set key v :: post
    ∧ ∀ op ∈ post, op.key = key → op.time < unixTime v

/-- The newest of the `Set`s of the key that only older requests of it follow. -/
def Kept (ops : List Op) (key v : Bytes) : Prop :=
  Outlives ops key v ∧ ∀ w, Outlives ops key w → unixTime w ≤ unixTime v

/-- A request of the key spares the value of a `Set` of another time exactly if it is older. -/
theorem spares_req_iff {op : Op} {key : Bytes} {t : Time} (hop : op.IsWrite) (hne : op.time ≠ t) :
    (∀ r, op.req key = some r → Spares unixTime t r) ↔ (op.key = key → op.time < t) := by
  cases op with
  | set k v =>
    simp only [Op.req, Option.ite_none_right_eq_some, Option.some.injEq, Op.key, Op.time]
    constructor
    · intro h hk
      exact lt_of_le_of_ne (h _ ⟨hk, rfl⟩) hne
    · rintro h r ⟨hk, rfl⟩
      exact (h hk).le
  | cas k v => exact absurd hop id
  | del k v =>
    simp only [Op.req, Option.ite_none_right_eq_some, Option.some.injEq, Op.key, Op.time]
    constructor
    · intro h hk
      exact h _ ⟨hk, rfl⟩
    · rintro h r ⟨hk, rfl⟩
      exact h hk

/-- A request behind a `Set` carries another time. -/
theorem time_ne_of_behind {pre post : List Op} {key v : Bytes}
    (hdist : ((pre ++ .set key v :: post).map Op.time).Nodup) {op : Op} (hop : op ∈ post) :
    op.time ≠ unixTime v := fun heq => by
  rw [List.map_append, List.map_cons] at hdist
  have hcons := (List.nodup_cons.mp (List.nodup_append.mp hdist).2.1).1
  exact hcons (List.mem_map.mpr ⟨op, hop, heq⟩)

/-- With distinct timestamps, the `put`s that survive are the `Set`s that outlive. -/
theorem survives_reqs_iff (hops : ∀ op ∈ ops, op.IsWrite) (hdist : (ops.map Op.time).Nodup)
    (key v : Bytes) : Survives unixTime (reqs key ops) v ↔ Outlives ops key v := by
  -- the requests behind a `Set` carry other times, and ask what they ask
  have hpost : ∀ {pre post}, ops = pre ++ .set key v :: post →
      ((∀ r ∈ reqs key post, Spares unixTime (unixTime v) r)
        ↔ ∀ op ∈ post, op.key = key → op.time < unixTime v) := by
    rintro pre post rfl
    have hne : ∀ op ∈ post, op.time ≠ unixTime v := fun op hop => time_ne_of_behind hdist hop
    have hwrite : ∀ op ∈ post, op.IsWrite := fun op hop =>
      hops op (List.mem_append_right _ (List.mem_cons_of_mem _ hop))
    constructor
    · intro h op hop
      refine (spares_req_iff (hwrite op hop) (hne op hop)).mp fun r hr => ?_
      exact h r (List.mem_filterMap.mpr ⟨op, hop, hr⟩)
    · intro h r hr
      obtain ⟨op, hop, hreq⟩ := List.mem_filterMap.mp hr
      exact (spares_req_iff (hwrite op hop) (hne op hop)).mpr (h op hop) r hreq
  constructor
  · rintro ⟨pre', post', heq, hsp⟩
    obtain ⟨pre, post, hsplit, -, rfl⟩ := split_of_reqs heq
    exact ⟨pre, post, hsplit, (hpost hsplit).mp hsp⟩
  · rintro ⟨pre, post, hsplit, hlt⟩
    refine ⟨reqs key pre, reqs key post, ?_, (hpost hsplit).mpr hlt⟩
    rw [hsplit, reqs, List.filterMap_append, List.filterMap_cons_some (Op.req_eq_put.mpr rfl)]
    rfl

/-- **What a `PMap` keeps of a key**: the newest `Set` that only older requests follow. -/
theorem value_iff_kept (hops : ∀ op ∈ ops, op.IsWrite) (hdist : (ops.map Op.time).Nodup)
    (h : Served hash path size ops c) (key v : Bytes) :
    c.value key = some v ↔ Kept ops key v := by
  rw [value_of_served hops h]
  simp only [Kept, ← survives_reqs_iff hops hdist]
  constructor
  · exact fun hv => ⟨Register.survives_of_run hv, fun w => Register.le_of_survives hv⟩
  · rintro ⟨hs, hmax⟩
    obtain ⟨u, hu⟩ := Register.exists_run_of_survives hs
    have hsu := Register.survives_of_run hu
    have htime : unixTime u = unixTime v :=
      le_antisymm (hmax u hsu) (Register.le_of_survives hu hs)
    have heq := List.inj_on_of_nodup_map hdist (put_mem_reqs.mp hsu.mem) (put_mem_reqs.mp hs.mem)
      htime
    rw [hu, (Op.set.inj heq).2]

/-- The newest request of a key, if it is a `Set`, is kept. -/
theorem kept_of_newest (hdist : (ops.map Op.time).Nodup) {key v : Bytes} (hv : .set key v ∈ ops)
    (hnew : ∀ op ∈ ops, op.key = key → op.time ≤ unixTime v) : Kept ops key v := by
  obtain ⟨pre, post, rfl⟩ := List.append_of_mem hv
  refine ⟨⟨pre, post, rfl, fun op hop hk => ?_⟩, fun w hw => ?_⟩
  · exact lt_of_le_of_ne (hnew op (List.mem_append_right _ (List.mem_cons_of_mem _ hop)) hk)
      (time_ne_of_behind hdist hop)
  · obtain ⟨pre', post', heq, -⟩ := hw
    exact hnew (.set key w) (heq ▸ List.mem_append_right _ List.mem_cons_self) rfl

/-- **Deliveries of `Set`s and `Del`s.**  Two fresh `PMap`s that accepted the same requests, of
distinct timestamps, in any two orders: each keeps of a key the newest `Set` that only older
requests of the key follow in its own order; both keep a `Set` that is the key's newest request. -/
theorem deliveries_keep (hops : ∀ op ∈ ops₁, op.IsWrite) (hdist : (ops₁.map Op.time).Nodup)
    (hperm : ops₁.Perm ops₂) (h₁ : Served hash path₁ size₁ ops₁ c₁)
    (h₂ : Served hash path₂ size₂ ops₂ c₂) (key : Bytes) :
    (∀ v, c₁.value key = some v ↔ Kept ops₁ key v)
      ∧ (∀ v, c₂.value key = some v ↔ Kept ops₂ key v)
      ∧ ∀ v, .set key v ∈ ops₁ → (∀ op ∈ ops₁, op.key = key → op.time ≤ unixTime v) →
        c₁.value key = some v ∧ c₂.value key = some v := by
  have hops₂ : ∀ op ∈ ops₂, op.IsWrite := fun op hop => hops op (hperm.mem_iff.mpr hop)
  have hdist₂ : (ops₂.map Op.time).Nodup := (hperm.map _).nodup_iff.mp hdist
  have hiff₁ := value_iff_kept hops hdist h₁ key
  have hiff₂ := value_iff_kept hops₂ hdist₂ h₂ key
  refine ⟨hiff₁, hiff₂, fun v hv hnew => ⟨(hiff₁ v).mpr ?_, (hiff₂ v).mpr ?_⟩⟩
  · exact kept_of_newest hdist hv hnew
  · exact kept_of_newest hdist₂ (hperm.mem_iff.mp hv) fun op hop => hnew op (hperm.mem_iff.mpr hop)

/-- A `Del` between two `Set`s, in two orders. -/
theorem deliveries_keep_two_orders : ∃ c₁ c₂,
    Served fnv1a64 "" 100
      [.set [1] (stamped 5 [7]), .del [1] (stamped 6 []), .set [1] (stamped 8 [9])] c₁
    ∧ Served fnv1a64 "" 100
      [.set [1] (stamped 8 [9]), .set [1] (stamped 5 [7]), .del [1] (stamped 6 [])] c₂
    ∧ c₁.value [1] = some (stamped 8 [9]) ∧ c₂.value [1] = some (stamped 8 [9]) := by
  obtain ⟨c₁, h₁⟩ := exists_served fnv1a64 "" 100 (by decide)
    [.set [1] (stamped 5 [7]), .del [1] (stamped 6 []), .set [1] (stamped 8 [9])] (by decide)
    (by decide +kernel)
  obtain ⟨c₂, h₂⟩ := exists_served fnv1a64 "" 100 (by decide)
    [.set [1] (stamped 8 [9]), .set [1] (stamped 5 [7]), .del [1] (stamped 6 [])] (by decide)
    (by decide +kernel)
  exact ⟨c₁, c₂, h₁, h₂, (deliveries_keep (by simp [Op.IsWrite]) (by decide +kernel)
    (by decide +kernel) h₁ h₂ [1]).2.2 (stamped 8 [9]) (by decide +kernel) (by decide +kernel)⟩

/-- The newest request is the `Del`: delivered last it removes the key, delivered first it leaves
the older `Set` to stay. -/
theorem late_set_outlives_del : ∃ c₁ c₂,
    Served fnv1a64 "" 100 [.set [1] (stamped 5 [7]), .del [1] (stamped 6 [])] c₁
    ∧ Served fnv1a64 "" 100 [.del [1] (stamped 6 []), .set [1] (stamped 5 [7])] c₂
    ∧ c₁.value [1] = none ∧ c₂.value [1] = some (stamped 5 [7]) := by
  obtain ⟨c₁, h₁⟩ := exists_served fnv1a64 "" 100 (by decide)
    [.set [1] (stamped 5 [7]), .del [1] (stamped 6 [])] (by decide) (by decide +kernel)
  obtain ⟨c₂, h₂⟩ := exists_served fnv1a64 "" 100 (by decide)
    [.del [1] (stamped 6 []), .set [1] (stamped 5 [7])] (by decide) (by decide +kernel)
  refine ⟨c₁, c₂, h₁, h₂, ?_, ?_⟩
  · rw [(refines_run h₁).value_eq, Ledger.dict_run]
    decide +kernel
  · rw [(refines_run h₂).value_eq, Ledger.dict_run]
    decide +kernel

end PMap

end Treeless
