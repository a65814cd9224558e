import Treeless.Client.Client
import Treeless.PMap.Full
import Treeless.Dist.Repair
import Mathlib.Data.List.Induction

/-!
# Client/ReadRepair — a `Get` that leaves the holders newer than it found them

`Get` asks the holders of a key, waits for each in turn, and sends the latest pair it heard of to
those it heard an older one from, or none:

    holder i ──answer──► Get ──Set(key, latest)──► network ──deliver──► holder j

Between the answer of a holder and the delivery of a repair, other clients write.  A `Set` makes no
pair older, on any holder, so what an answer said of a holder still bounds it from below at the end.
-/

namespace Treeless

namespace Client

variable {ι : Type}

/-! ## The loops of `Get` -/

/-- `Before`, on a `time.Time`: there is the zero time, before all others, or a timestamp. -/
def before : Option Time → Option Time → Bool
  | _, none => false
  | none, some _ => true
  | some t, some t' => t < t'

/-- The variables of `Get`: the value and the time it returns, the times of the servers, and
whether one of them answered. -/
structure Gathered where
  value : Option Bytes
  lastTime : Option Time
  times : List (Option Time)
  read : Bool

/-- The answer of the server at the index is waited for; there is none if the request failed. -/
def gather (g : Gathered) (answer : Option Bytes × ℕ) : Gathered :=
  match answer with
  | (none, _) => g
  | (some v, i) =>
    if 8 ≤ v.length then
      let t := unixTime v
      if before g.lastTime t then ⟨some v, t, g.times.set i t, true⟩
      else ⟨g.value, g.lastTime, g.times.set i t, true⟩
    else { g with read := true }

/-- The answers, in the order of the servers. -/
def gatherAll (answers : List (Option Bytes)) : Gathered :=
  answers.zipIdx.foldl gather ⟨none, none, List.replicate 8 none, false⟩

/-- The servers that are sent the value: those whose time is before that of the value. -/
def repairs (servers : List (Option ι)) (g : Gathered) : List ι :=
  (servers.zip g.times).filterMap fun p => if before p.2 g.lastTime then p.1 else none

/-- What `Get` has gathered from the holders, by what it heard from each. -/
def gathered (holders : List ι) (heard : ι → Option Bytes) : Gathered :=
  gatherAll ((servers holders).map fun s => s.bind heard)

/-- **`Get`** returns the value, without its timestamp, the time of the value, and whether a server
answered. -/
def get (holders : List ι) (heard : ι → Option Bytes) : Option Bytes × Option Time × Bool :=
  let g := gathered holders heard
  (g.value.map fun v => v.drop 8, g.lastTime, g.read)

/-! ## What they compute -/

theorem replyTime_some {v : Bytes} (hv : 8 ≤ v.length) :
    replyTime (some v) = some (unixTime v) := by
  rw [replyTime, if_pos hv]

theorem replyTime_short {v : Bytes} (hv : ¬ 8 ≤ v.length) : replyTime (some v) = none := by
  rw [replyTime, if_neg hv]

theorem exists_of_replyTime {r : Option Bytes} {t : Time} (h : replyTime r = some t) :
    ∃ v, r = some v ∧ 8 ≤ v.length ∧ unixTime v = t := by
  cases r with
  | none => cases h
  | some v =>
    by_cases hv : 8 ≤ v.length
    · exact ⟨v, rfl, hv, Option.some.inj ((replyTime_some hv).symm.trans h)⟩
    · cases (replyTime_short hv).symm.trans h

/-- A time that is not before a timestamp. -/
theorem exists_le_of_not_before {o : Option Time} {t : Time} (h : ¬ before o (some t)) :
    ∃ l, o = some l ∧ t ≤ l := by
  cases o with
  | none => exact absurd rfl h
  | some l => exact ⟨l, rfl, not_lt.mp fun hlt => h (decide_eq_true hlt)⟩

theorem exists_lt_of_before {o : Option Time} {l : Time} (h : before (some l) o) :
    ∃ t, o = some t ∧ l < t := by
  cases o with
  | none => cases h
  | some t => exact ⟨t, rfl, of_decide_eq_true h⟩

/-- A value found has a timestamp. -/
def Stamped (last : Option Bytes) : Prop := ∀ v, last = some v → 8 ≤ v.length

/-- **One answer more**: the value is replaced if it is before the answer, and not else. -/
theorem later_eq {last reply : Option Bytes} (h : Stamped last) :
    later last reply = if before (replyTime last) (replyTime reply) then reply else last := by
  cases reply with
  | none => exact (if_neg Bool.false_ne_true).symm
  | some v =>
    simp only [later]
    by_cases hv : 8 ≤ v.length
    · rw [if_pos hv, replyTime_some hv]
      cases last with
      | none => rfl
      | some l =>
        rw [replyTime_some (h l rfl)]
        exact if_congr decide_eq_true_iff.symm rfl rfl
    · rw [if_neg hv, replyTime_short hv]
      exact (if_neg Bool.false_ne_true).symm

theorem Stamped.later {last : Option Bytes} (h : Stamped last) (reply : Option Bytes) :
    Stamped (later last reply) := by
  intro v hv
  rw [later_eq h] at hv
  split at hv
  · next hlt =>
    by_contra hshort
    rw [hv, replyTime_short hshort] at hlt
    exact Bool.false_ne_true hlt
  · exact h v hv

theorem latest_append (replies : List (Option Bytes)) (r : Option Bytes) :
    latest (replies ++ [r]) = later (latest replies) r := by
  rw [latest, latest, List.foldl_append]
  rfl

/-- **What `Get` finds is not before any of the answers.** -/
theorem latest_spec (replies : List (Option Bytes)) :
    Stamped (latest replies) ∧ ∀ r ∈ replies, ∀ t, replyTime r = some t →
      ∃ l, replyTime (latest replies) = some l ∧ t ≤ l := by
  induction replies using List.reverseRecOn with
  | nil => exact ⟨fun _ h => (by cases h), fun _ h => (by cases h)⟩
  | append_singleton replies r ih =>
    rw [latest_append]
    refine ⟨ih.1.later r, fun r' hr' t ht => ?_⟩
    rw [later_eq ih.1]
    split
    · next hbefore =>
      rcases List.mem_append.mp hr' with hr' | hr'
      · obtain ⟨l, hl, hle⟩ := ih.2 r' hr' t ht
        obtain ⟨t', ht', hlt⟩ := exists_lt_of_before (hl ▸ hbefore)
        exact ⟨t', ht', hle.trans hlt.le⟩
      · exact ⟨t, List.mem_singleton.mp hr' ▸ ht, le_rfl⟩
    · next hnot =>
      rcases List.mem_append.mp hr' with hr' | hr'
      · exact ih.2 r' hr' t ht
      · rw [← List.mem_singleton.mp hr', ht] at hnot
        exact exists_le_of_not_before hnot

/-- **The first loop** finds the latest answer, and keeps the time of each. -/
theorem gatherAll_eq {answers : List (Option Bytes)} (hlen : answers.length ≤ 8) :
    gatherAll answers = ⟨latest answers, replyTime (latest answers),
      answers.map replyTime ++ List.replicate (8 - answers.length) none,
      answers.any Option.isSome⟩ := by
  induction answers using List.reverseRecOn with
  | nil => rfl
  | append_singleton answers r ih =>
    rw [List.length_append, List.length_singleton] at hlen
    have hstep : gatherAll (answers ++ [r]) = gather (gatherAll answers) (r, answers.length) := by
      rw [gatherAll, List.zipIdx_append, List.foldl_append, Nat.zero_add]
      rfl
    obtain ⟨room, hroom⟩ : ∃ room, 8 - answers.length = room + 1 := ⟨7 - answers.length, by omega⟩
    have hset := fun t => set_append_replicate (answers.map replyTime) none t room
    rw [List.length_map] at hset
    have hstamped := (latest_spec answers).1
    rw [hstep, ih (by omega), latest_append, later_eq hstamped, hroom, List.map_append,
      List.map_singleton, List.append_assoc, List.singleton_append, List.length_append,
      List.length_singleton, Nat.sub_add_eq, hroom, Nat.add_sub_cancel, List.any_append,
      List.any_cons, List.any_nil, Bool.or_false]
    cases r with
    | none => simp [gather, before, replyTime, List.replicate_succ]
    | some v =>
      by_cases hv : 8 ≤ v.length
      · rw [replyTime_some hv]
        simp only [gather, if_pos hv, hset, Option.isSome_some, Bool.or_true]
        split
        · rw [replyTime_some hv]
        · rfl
      · rw [replyTime_short hv]
        simp [gather, before, hv, List.replicate_succ]

theorem length_servers {holders : List ι} (hlen : holders.length ≤ 8) :
    (servers holders).length = 8 := by
  rw [servers, List.length_append, List.length_map, List.length_replicate]
  omega

theorem latest_append_none (replies : List (Option Bytes)) : ∀ n,
    latest (replies ++ List.replicate n none) = latest replies
  | 0 => by rw [List.replicate_zero, List.append_nil]
  | n + 1 => by
      rw [List.replicate_succ', ← List.append_assoc, latest_append]
      exact latest_append_none replies n

/-- A place with no holder does not answer. -/
theorem map_servers (holders : List ι) (heard : ι → Option Bytes) :
    (servers holders).map (fun s => s.bind heard)
      = holders.map heard ++ List.replicate (8 - holders.length) none := by
  rw [servers, List.map_append, List.map_map, List.map_replicate]
  rfl

/-- **What `Get` finds** is the latest answer, and its time that of the answer. -/
theorem gathered_eq {holders : List ι} (hlen : holders.length ≤ 8) (heard : ι → Option Bytes) :
    (gathered holders heard).value = latest (holders.map heard)
      ∧ (gathered holders heard).lastTime = replyTime (latest (holders.map heard))
      ∧ (gathered holders heard).times
        = (servers holders).map fun s => replyTime (s.bind heard) := by
  have hlen8 := length_servers hlen
  rw [gathered, gatherAll_eq (by rw [List.length_map, hlen8])]
  refine ⟨?_, ?_, ?_⟩
  · dsimp only
    rw [map_servers, latest_append_none]
  · dsimp only
    rw [map_servers, latest_append_none]
  · simp [hlen8]

/-- The holders that are behind, by their times. -/
theorem stale_eq (holders : List ι) (heard : ι → Option Bytes) (v : Bytes) :
    stale holders heard v
      = holders.filter fun i => before (replyTime (heard i)) (some (unixTime v)) := by
  refine List.filter_congr fun i _ => ?_
  cases replyTime (heard i) <;> rfl

/-- **The second loop** goes to the holders that are behind the value found. -/
theorem repairs_eq_stale {holders : List ι} (hlen : holders.length ≤ 8)
    {heard : ι → Option Bytes} {v : Bytes} (hv : latest (holders.map heard) = some v) :
    repairs (servers holders) (gathered holders heard) = stale holders heard v := by
  obtain ⟨-, hlast, htimes⟩ := gathered_eq hlen heard
  have hzip : (servers holders).zip ((servers holders).map fun s => replyTime (s.bind heard))
      = (servers holders).map fun s => (s, replyTime (s.bind heard)) := by
    have h := List.zip_map' (f := id) (g := fun s => replyTime (s.bind heard))
      (l := servers holders)
    rwa [List.map_id] at h
  rw [repairs, htimes, hzip, List.filterMap_map, hlast, hv,
    replyTime_some ((latest_spec _).1 v hv), stale_eq, servers, List.filterMap_append,
    List.filterMap_map]
  rw [List.filterMap_replicate_of_none rfl, List.append_nil, ← List.filterMap_eq_filter]
  refine List.filterMap_congr fun i _ => ?_
  simp [Option.guard]

end Client

/-! ## What a `Set` does to the timestamps -/

/-- **The answer to a `Set` with a timestamp** names one of the two limits, or no error. -/
theorem Ledger.answer_set_cases (L : Ledger) (full : Bool) (k : Bytes) {v : Bytes}
    (hv : 8 ≤ v.length) : L.answer full (.set k v) = none
      ∨ L.answer full (.set k v) = some .hashMapLimit
      ∨ L.answer full (.set k v) = some .storeLimit := by
  have hput : L.putAnswer k v = none ∨ L.putAnswer k v = some .storeLimit :=
    ite_eq_or_eq _ _ _
  rw [answer, if_neg (not_lt.mpr hv)]
  split
  · exact Or.inr (Or.inl rfl)
  · split
    · exact hput.imp_right Or.inr
    · split
      · exact Or.inl rfl
      · exact hput.imp_right Or.inr

namespace PMap

variable {c c' : PMap} {key k v : Bytes} {t : Time} {e : Option Error}

/-- The key is stored with a timestamp not before `t`. -/
def Holds (key : Bytes) (t : Time) (c : PMap) : Prop :=
  ∃ w, c.value key = some w ∧ t ≤ unixTime w

/-- **A `Set`, whatever its answer, makes no pair older.** -/
theorem Holds.set (h : c.Holds key t) (hc : c.Reached fnv1a64)
    (hs : Returned fnv1a64 c (.set k v, e) c') : c'.Holds key t := by
  obtain ⟨w, hw, ht⟩ := h
  obtain ⟨w', hw', hback⟩ := hc.stamp hs hw fun _ h => (by cases h)
  refine ⟨w', hw', ht.trans (hback.mpr ?_)⟩
  rintro ⟨u, h, -⟩
  cases (Prod.mk.inj h).1

/-- **A `Set` that meets neither limit** leaves its key with a timestamp not before its own. -/
theorem Reached.holds_of_set (hc : c.Reached fnv1a64) (hv : 8 ≤ v.length)
    (hs : Returned fnv1a64 c (.set k v, e) c') (hmap : e ≠ some .hashMapLimit)
    (hput : e ≠ some .storeLimit) : c'.Holds k (unixTime v) := by
  obtain ⟨L, hr, hsize⟩ := hc.exists_refines
  have ha : Answered fnv1a64 c (.set k v, e) c' := ⟨trivial, hs⟩
  obtain ⟨hans, hr', -⟩ := (ha.step hsize hr).refines hr
  have hnone : e = none := by
    rcases L.answer_set_cases c.hm.full k hv with h | h | h
    · exact hans.trans h
    · exact absurd (hans.trans h) hmap
    · exact absurd (hans.trans h) hput
  subst hnone
  obtain ⟨w, hw, hle⟩ := L.has_apply_set fnv1a64 k v
  exact ⟨w, (congrFun hr'.value_eq k).trans hw, hle⟩

end PMap

/-- A request that does not delete the key, nor gives it another timestamp by a `CAS`. -/
def Op.Spares (k : Bytes) : Op → Prop
  | .set _ _ => True
  | .cas k' _ => k' ≠ k
  | .del k' _ => k' ≠ k

/-- **A request that spares a key** does not make it older. -/
theorem PMap.Holds.request {c c' : PMap} {k : Bytes} {t : Time} (h : c.Holds k t)
    (hc : c.Reached fnv1a64) {op : Op} {e : Option Error} (hop : op.Spares k)
    (hs : PMap.Returned fnv1a64 c (op, e) c') : c'.Holds k t := by
  obtain ⟨v, hv, ht⟩ := h
  have hdel : ∀ w, op ≠ .del k w := by
    rintro w rfl
    exact hop rfl
  obtain ⟨v', hv', hback⟩ := hc.stamp hs hv hdel
  refine ⟨v', hv', ht.trans (hback.mpr ?_)⟩
  rintro ⟨u, hev, -⟩
  obtain ⟨rfl, -⟩ := Prod.mk.inj hev
  exact hop rfl

namespace Client

/-! ## The model -/

/-- A `Get` under way: what the holders store, what each has answered, what the client had heard
from each when it stopped waiting, and the repairs it sent. -/
structure Reading (ι : Type) where
  store : ι → PMap
  answer : ι → Option Bytes
  heard : Option (ι → Option Bytes)
  network : List (Push ι)

namespace Reading

variable {ι : Type}

/-- What may happen while a client reads a key. -/
inductive Event (ι : Type)
  /-- A holder serves the `Set` of another client, or of its read repair. -/
  | set (i : ι) (key value : Bytes) (e : Option Error)
  /-- A holder serves the `Get`. -/
  | answer (i : ι)
  /-- The client stops waiting; some answers were lost or too late. -/
  | collect (lost : ι → Bool)
  /-- A repair arrives. -/
  | deliver (m : Push ι) (e : Option Error)

/-- A `Get` that starts. -/
def start (store : ι → PMap) : Reading ι := ⟨store, fun _ => none, none, []⟩

/-- The client takes the latest of the answers it heard, and sends it to those that are behind. -/
def collect (holders : List ι) (key : Bytes) (s : Reading ι) (lost : ι → Bool) : Reading ι :=
  let heard := fun i => if lost i then none else s.answer i
  let g := gathered holders heard
  { s with
    heard := some heard
    network := match g.value with
      | none => []
      | some v => (repairs (servers holders) g).map fun i => ⟨i, key, v⟩ }

/-- What the holder `i` stores from now on. -/
def put [DecidableEq ι] (s : Reading ι) (i : ι) (c : PMap) : Reading ι :=
  { s with store := Function.update s.store i c }

/-- The event takes the `Get` of the key from `s` to `s'`.  A holder without the key answers with
the empty value. -/
def Steps [DecidableEq ι] (holders : List ι) (key : Bytes) (s : Reading ι) :
    Event ι → Reading ι → Prop
  | .set i k v e, s' => ∃ c, (s.store i).set (fnv1a64 k) k v = .ok (e, c) ∧ s' = s.put i c
  | .answer i, s' => s.answer i = none
    ∧ ∃ r, (s.store i).get (fnv1a64 key).toUInt32 key = .ok r
      ∧ s' = { s with answer := Function.update s.answer i (some (r.getD [])) }
  | .collect lost, s' => s.heard = none ∧ s' = s.collect holders key lost
  | .deliver m e, s' => m ∈ s.network
    ∧ ∃ c, (s.store m.holder).set (fnv1a64 m.key) m.key m.value = .ok (e, c)
      ∧ s' = { s.put m.holder c with network := s.network.erase m }

/-! ## The invariant -/

/-- What holds at every point of a `Get` of the key. -/
structure Inv (holders : List ι) (key : Bytes) (s : Reading ι) : Prop where
  reached : ∀ i, (s.store i).Reached fnv1a64
  /-- A holder is not behind what it answered. -/
  answered : ∀ i v, s.answer i = some v → 8 ≤ v.length → (s.store i).Holds key (unixTime v)
  /-- A holder is not behind the value found, or is sent it. -/
  repaired : ∀ heard v, s.heard = some heard → (gathered holders heard).value = some v →
    ∀ i ∈ holders, (s.store i).Holds key (unixTime v) ∨ ⟨i, key, v⟩ ∈ s.network
  sent : ∀ m ∈ s.network, m.key = key ∧ 8 ≤ m.value.length

variable {holders : List ι} {key : Bytes} {s s' : Reading ι}

theorem inv_start {store : ι → PMap} (h : ∀ i, (store i).Reached fnv1a64) :
    Inv holders key (start store) :=
  ⟨h, fun _ _ h => (by cases h), fun _ _ h => (by cases h), fun _ h => (by cases h)⟩

/-- **The client stops waiting**: who is not sent the value has answered with one as new. -/
theorem Inv.collect (h : Inv holders key s) (hlen : holders.length ≤ 8) (lost : ι → Bool) :
    Inv holders key (s.collect holders key lost) := by
  refine ⟨h.reached, h.answered, ?_, ?_⟩
  · rintro heard v ⟨⟩ hv i hi
    rw [Reading.collect]
    dsimp only
    rw [hv]
    dsimp only
    obtain ⟨hval, -, -⟩ := gathered_eq hlen fun i => if lost i then none else s.answer i
    rw [hval] at hv
    rw [repairs_eq_stale hlen hv, stale_eq]
    by_cases hbefore : before (replyTime (if lost i then none else s.answer i)) (some (unixTime v))
    · exact Or.inr (List.mem_map_of_mem (List.mem_filter.mpr ⟨hi, hbefore⟩))
    · obtain ⟨l, hl, hle⟩ := exists_le_of_not_before hbefore
      obtain ⟨w, hw, hwlen, rfl⟩ := exists_of_replyTime hl
      split at hw
      · cases hw
      · obtain ⟨u, hu, hwu⟩ := h.answered i w hw hwlen
        exact Or.inl ⟨u, hu, hle.trans hwu⟩
  · intro m hm
    rw [Reading.collect] at hm
    dsimp only at hm
    split at hm
    · cases hm
    · next v hv =>
      obtain ⟨i, -, rfl⟩ := List.mem_map.mp hm
      rw [(gathered_eq hlen _).1] at hv
      exact ⟨rfl, (latest_spec _).1 v hv⟩

variable [DecidableEq ι]

theorem forall_put {P : ι → PMap → Prop} {i : ι} {c : PMap} (h : ∀ j, P j (s.store j))
    (hc : P i c) (j : ι) : P j ((s.put i c).store j) :=
  (Function.forall_update_iff s.store P).mpr ⟨hc, fun j _ => h j⟩ j

/-- **A `Set` served by a holder** makes no holder's pair older. -/
theorem Inv.holds_put (h : Inv holders key s) {i : ι} {k v : Bytes} {e : Option Error} {c : PMap}
    (hs : (s.store i).set (fnv1a64 k) k v = .ok (e, c)) {j : ι} {key' : Bytes} {t : Time}
    (hold : (s.store j).Holds key' t) : ((s.put i c).store j).Holds key' t :=
  forall_put (P := fun j c => (s.store j).Holds key' t → c.Holds key' t) (fun _ => id)
    (fun hold => hold.set (h.reached i) hs) j hold

theorem Inv.put (h : Inv holders key s) {i : ι} {k v : Bytes} {e : Option Error} {c : PMap}
    (hs : (s.store i).set (fnv1a64 k) k v = .ok (e, c)) : Inv holders key (s.put i c) := by
  have hret : PMap.Returned fnv1a64 (s.store i) (.set k v, e) c := hs
  exact ⟨forall_put h.reached ((h.reached i).run (.cons hret (.refl _))),
    fun j w hw hlen => h.holds_put hs (h.answered j w hw hlen),
    fun heard w hheard hw j hj => (h.repaired heard w hheard hw j hj).imp_left (h.holds_put hs),
    h.sent⟩

/-- **A holder answers** with what it stores. -/
theorem Inv.answer (h : Inv holders key s) (hkey : 2 ≤ (fnv1a64 key).toUInt32) {i : ι}
    {r : Option Bytes} (hget : (s.store i).get (fnv1a64 key).toUInt32 key = .ok r) :
    Inv holders key { s with answer := Function.update s.answer i (some (r.getD [])) } := by
  refine ⟨h.reached, fun j v hv hlen => ?_, h.repaired, h.sent⟩
  dsimp only at hv ⊢
  by_cases hj : j = i
  · subst hj
    rw [Function.update_self] at hv
    obtain rfl := Option.some.inj hv
    obtain ⟨L, hr, -⟩ := (h.reached j).exists_refines
    rw [hr.toDenotes.get_eq hkey, ← congrFun hr.value_eq key] at hget
    cases r with
    | none => exact absurd hlen (by decide)
    | some w => exact ⟨w, Except.ok.inj hget, le_rfl⟩
  · rw [Function.update_of_ne hj] at hv
    exact h.answered j v hv hlen

/-- **A repair arrives**, and meets neither limit. -/
theorem Inv.deliver (h : Inv holders key s) {m : Push ι} (hm : m ∈ s.network) {e : Option Error}
    {c : PMap} (hs : (s.store m.holder).set (fnv1a64 m.key) m.key m.value = .ok (e, c))
    (hput : e ≠ some .storeLimit) (hmap : e ≠ some .hashMapLimit) :
    Inv holders key { s.put m.holder c with network := s.network.erase m } := by
  have h' := h.put hs
  refine ⟨h'.reached, h'.answered, fun heard v hheard hv i hi => ?_, fun m' hm' =>
    h.sent m' (List.mem_of_mem_erase hm')⟩
  rcases h'.repaired heard v hheard hv i hi with hholds | hmem
  · exact Or.inl hholds
  · by_cases heq : (⟨i, key, v⟩ : Push ι) = m
    · subst heq
      refine Or.inl ?_
      have := (h.reached i).holds_of_set (h.sent _ hm).2 hs hmap hput
      rw [Reading.put]
      dsimp only
      rwa [Function.update_self]
    · exact Or.inr ((List.mem_erase_of_ne heq).mpr hmem)

/-- The event is no repair that met a limit. -/
def Event.Accepted : Event ι → Prop
  | .deliver _ e => e ≠ some .storeLimit ∧ e ≠ some .hashMapLimit
  | _ => True

/-- **One event**: the invariant holds on, and no holder's pair gets older. -/
theorem Inv.step (h : Inv holders key s) (hlen : holders.length ≤ 8)
    (hkey : 2 ≤ (fnv1a64 key).toUInt32) {ev : Event ι} (hev : ev.Accepted)
    (hs : Steps holders key s ev s') :
    Inv holders key s' ∧ ∀ i t, (s.store i).Holds key t → (s'.store i).Holds key t := by
  cases ev with
  | set i k v e =>
    obtain ⟨c, hs, rfl⟩ := hs
    exact ⟨h.put hs, fun j t => h.holds_put hs⟩
  | answer i =>
    obtain ⟨-, r, hget, rfl⟩ := hs
    exact ⟨h.answer hkey hget, fun _ _ => id⟩
  | collect lost =>
    obtain ⟨-, rfl⟩ := hs
    exact ⟨h.collect hlen lost, fun _ _ => id⟩
  | deliver m e =>
    obtain ⟨hm, c, hs, rfl⟩ := hs
    exact ⟨h.deliver hm hs hev.1 hev.2, fun j t => h.holds_put hs⟩

/-- **A run.** -/
theorem Inv.run (hlen : holders.length ≤ 8) (hkey : 2 ≤ (fnv1a64 key).toUInt32)
    {evs : List (Event ι)} (hrun : Run (Steps holders key) s evs s')
    (hevs : ∀ ev ∈ evs, ev.Accepted) (h : Inv holders key s) :
    Inv holders key s' ∧ ∀ i t, (s.store i).Holds key t → (s'.store i).Holds key t := by
  induction hrun with
  | refl => exact ⟨h, fun _ _ => id⟩
  | cons hs _ ih =>
    obtain ⟨h₁, hgrow₁⟩ := h.step hlen hkey (hevs _ List.mem_cons_self) hs
    obtain ⟨h₂, hgrow₂⟩ := ih (fun ev hev => hevs ev (List.mem_cons_of_mem _ hev)) h₁
    exact ⟨h₂, fun i t hold => hgrow₂ i t (hgrow₁ i t hold)⟩

/-! ## Two holders, one of them without the pair -/

/-- Both holders answer, and the one without the pair is sent it. -/
def fetch (key v : Bytes) (e : Option Error) : List (Event Bool) :=
  [.answer true, .answer false, .collect fun _ => false, .deliver ⟨false, key, v⟩ e]

/-- What the client hears. -/
def fetched (v : Bytes) (i : Bool) : Option Bytes := some (if i then v else [])

theorem latest_fetched {v : Bytes} (hv : 8 ≤ v.length) :
    latest ([true, false].map (fetched v)) = some v := by
  simp [latest, later, fetched, hv]

theorem get_fetched {v : Bytes} (hv : 8 ≤ v.length) :
    get [true, false] (fetched v) = (some (v.drop 8), some (unixTime v), true) := by
  have htwo : [true, false].length ≤ 8 := by decide
  obtain ⟨hval, hlast, -⟩ := gathered_eq htwo (fetched v)
  rw [latest_fetched hv] at hval hlast
  have hread : (gathered [true, false] (fetched v)).read = true := by
    rw [gathered, gatherAll_eq (by rw [List.length_map, length_servers htwo])]
    rfl
  rw [get, hval, hlast, hread, replyTime_some hv]
  rfl

theorem run_fetch {a b b' : PMap} {v : Bytes} {e : Option Error} (ha : a.Reached fnv1a64)
    (hb : b.Reached fnv1a64) (hkey : 2 ≤ (fnv1a64 key).toUInt32) (hv : a.value key = some v)
    (hnone : b.value key = none) (hset : b.set (fnv1a64 key) key v = .ok (e, b')) :
    8 ≤ v.length ∧ ∃ s, Run (Steps [true, false] key) (start fun i => if i then a else b)
      (fetch key v e) s ∧ s.heard = some (fetched v) ∧ s.network = [] ∧ s.store false = b' := by
  obtain ⟨La, hra, -⟩ := ha.exists_refines
  obtain ⟨Lb, hrb, -⟩ := hb.exists_refines
  have hlen : 8 ≤ v.length := hra.index.stamped key v ((congrFun hra.value_eq key).symm.trans hv)
  have hgeta : a.get (fnv1a64 key).toUInt32 key = .ok (some v) := by
    rw [hra.toDenotes.get_eq hkey, ← congrFun hra.value_eq key, hv]
  have hgetb : b.get (fnv1a64 key).toUInt32 key = .ok none := by
    rw [hrb.toDenotes.get_eq hkey, ← congrFun hrb.value_eq key, hnone]
  have hrepairs : repairs (servers [true, false]) (gathered [true, false] (fetched v))
      = [false] := by
    rw [repairs_eq_stale (by decide) (latest_fetched hlen), stale_eq]
    simp [fetched, before, replyTime, hlen]
  have hvalue : (gathered [true, false] (fetched v)).value = some v :=
    (gathered_eq (by decide) _).1.trans (latest_fetched hlen)
  -- the two answers are in, and none is lost
  have hcollect : ∀ s : Reading Bool, s.answer = fetched v →
      s.collect [true, false] key (fun _ => false)
        = ⟨s.store, s.answer, some (fetched v), [⟨false, key, v⟩]⟩ := by
    intro s hs
    have hheard : (fun i => if (fun _ : Bool => false) i then none else s.answer i) = fetched v :=
      funext fun i => (if_neg Bool.false_ne_true).trans (congrFun hs i)
    rw [collect]
    simp only [hheard, hvalue, hrepairs]
    rfl
  refine ⟨hlen, _, .cons ⟨rfl, some v, hgeta, rfl⟩ (.cons ⟨rfl, none, hgetb, rfl⟩
    (.cons ⟨rfl, (hcollect _ ?_).symm⟩ (.cons ⟨List.mem_cons_self, b', hset, rfl⟩ (.refl _)))),
    rfl, ?_, rfl⟩
  · funext i
    cases i <;> rfl
  · exact List.erase_cons_head ..

/-- A new holder takes the pair of timestamp 5. -/
theorem exists_set_five : ∃ a : PMap,
    PMap.Answered fnv1a64 (PMap.new "" 200) (.set [1] (PMap.stamped 5 [7]), none) a
      ∧ a.Stocked ∧ a.value [1] = some (PMap.stamped 5 [7]) := by
  obtain ⟨a, hrun, -⟩ := PMap.exists_run fnv1a64 (PMap.new "" 200)
    [(.set [1] (PMap.stamped 5 [7]), none)] (fun _ => .ok ()) () (by decide) (by decide +kernel)
  have hvalue : a.value [1] = some (PMap.stamped 5 [7]) := by
    rw [(PMap.run_refines_reference (by decide) hrun).2.1]
    decide +kernel
  cases hrun with
  | cons hs hend =>
    cases hend
    exact ⟨a, hs, (PMap.stocked_new (by decide)).set hs (by decide), hvalue⟩

/-! ## The end -/

/-- The timestamps of the answers. -/
def times (holders : List ι) (heard : ι → Option Bytes) : Set Time :=
  {t | ∃ i ∈ holders, replyTime (heard i) = some t}

/-- **Read repair only moves forward.**  At no point of a `Get`, whatever other clients set
meanwhile, does a holder's timestamp of the key decrease.  If the `Get` finds a value, the time it
returns is the largest timestamp among the answers, and every holder that none of its repairs is
still on its way to stores the key with a timestamp not before it, provided that no repair met the
limit of the store or that of the hash map. -/
theorem read_repair_forward (hlen : holders.length ≤ 8) (hkey : 2 ≤ (fnv1a64 key).toUInt32)
    {store : ι → PMap} (hstore : ∀ i, (store i).Reached fnv1a64) {s₁ : Reading ι}
    {evs₁ evs₂ : List (Event ι)} (hrun₁ : Run (Steps holders key) (start store) evs₁ s₁)
    (hrun₂ : Run (Steps holders key) s₁ evs₂ s) (hevs : ∀ ev ∈ evs₁ ++ evs₂, ev.Accepted) :
    (∀ i v, (s₁.store i).value key = some v →
      ∃ w, (s.store i).value key = some w ∧ unixTime v ≤ unixTime w)
    ∧ ∀ heard data lastTime read, s.heard = some heard →
      get holders heard = (some data, lastTime, read) →
      ∃ t, lastTime = some t ∧ IsGreatest (times holders heard) t
        ∧ ∀ i ∈ holders, (∀ m ∈ s.network, m.holder ≠ i) →
          ∃ w, (s.store i).value key = some w ∧ t ≤ unixTime w := by
  obtain ⟨h₁, -⟩ := (inv_start hstore).run hlen hkey hrun₁ fun ev hev =>
    hevs ev (List.mem_append_left _ hev)
  obtain ⟨h, hgrow⟩ := h₁.run hlen hkey hrun₂ fun ev hev => hevs ev (List.mem_append_right _ hev)
  refine ⟨fun i v hv => hgrow i _ ⟨v, hv, le_rfl⟩, ?_⟩
  rintro heard data lastTime read hheard hget
  obtain ⟨hdata, hrest⟩ := Prod.mk.inj hget
  obtain ⟨rfl, -⟩ := Prod.mk.inj hrest
  obtain ⟨v, hv, -⟩ := Option.map_eq_some_iff.mp hdata
  obtain ⟨hval, hlast, -⟩ := gathered_eq hlen heard
  have hlatest := hval.symm.trans hv
  obtain ⟨hstamp, hle⟩ := latest_spec (holders.map heard)
  have htime : replyTime (latest (holders.map heard)) = some (unixTime v) := by
    rw [hlatest, replyTime_some (hstamp v hlatest)]
  refine ⟨unixTime v, hlast.trans htime, ⟨?_, ?_⟩, fun i hi hnone => ?_⟩
  · obtain ⟨i, hi, heq⟩ := List.mem_map.mp (mem_of_latest hlatest)
    exact ⟨i, hi, by rw [heq, ← hlatest, htime]⟩
  · rintro t ⟨i, hi, ht⟩
    obtain ⟨l, hl, htl⟩ := hle (heard i) (List.mem_map_of_mem hi) t ht
    rwa [Option.some.inj (htime.symm.trans hl)]
  · exact (h.repaired heard v hheard hv i hi).resolve_right fun hm => hnone _ hm rfl

/-- A new holder is repaired. -/
theorem read_repair_forward_new : ∃ (a : PMap) (s : Reading Bool),
    Run (Steps [true, false] [1]) (start fun i => if i then a else PMap.new "" 200)
      (fetch [1] (PMap.stamped 5 [7]) none) s
    ∧ get [true, false] (fetched (PMap.stamped 5 [7])) = (some [7], some 5, true)
    ∧ ∃ w, (s.store false).value [1] = some w ∧ 5 ≤ unixTime w := by
  obtain ⟨a, ⟨-, hset⟩, ha, hv⟩ := exists_set_five
  have hb : (PMap.new "" 200).Stocked := PMap.stocked_new (by decide)
  have hkey : 2 ≤ (fnv1a64 [1]).toUInt32 := by decide
  have hnone : (PMap.new "" 200).value [1] = none :=
    congrFun (PMap.refines_new fnv1a64 "" 200).value_eq [1]
  obtain ⟨hlen, s, hrun, hheard, hnet, -⟩ := run_fetch ha.reached hb.reached hkey hv hnone hset
  have hget := get_fetched hlen
  have hstore : ∀ i : Bool, (if i then a else PMap.new "" 200).Reached fnv1a64 := fun i => by
    cases i
    · exact hb.reached
    · exact ha.reached
  have hevs : ∀ ev ∈ [] ++ fetch [1] (PMap.stamped 5 [7]) none, ev.Accepted := by
    simp [fetch, Event.Accepted]
  obtain ⟨t, ht, -, hrepaired⟩ :=
    (read_repair_forward (by decide) hkey hstore (.refl _) hrun hevs).2 _ _ _ _ hheard hget
  obtain rfl : unixTime (PMap.stamped 5 [7]) = t := Option.some.inj ht
  have hfive : unixTime (PMap.stamped 5 [7]) = 5 := by decide +kernel
  refine ⟨a, s, hrun, hget.trans (by rw [hfive]; rfl), ?_⟩
  rw [← hfive]
  exact hrepaired false (by decide) (by rw [hnet]; exact fun _ h => (by cases h))

/-- **A holder whose hash map is full** refuses the repair, though its store has room: when the only
repair of a `Get` that returned a pair has been delivered, the holder still does not have the key.
Every `Set` before was accepted, on both holders. -/
theorem read_repair_refused : ∃ (store : Bool → PMap) (s : Reading Bool),
    (∀ i, (store i).Stocked) ∧ 2 ≤ (fnv1a64 [1]).toUInt32
    ∧ Run (Steps [true, false] [1]) (start store)
      (fetch [1] (PMap.stamped 5 [7]) (some .hashMapLimit)) s
    ∧ s.heard = some (fetched (PMap.stamped 5 [7]))
    ∧ get [true, false] (fetched (PMap.stamped 5 [7])) = (some [7], some 5, true)
    ∧ s.network = [] ∧ (s.store false).value [1] = none := by
  obtain ⟨a, -, ha, hv⟩ := exists_set_five
  obtain ⟨b, hb, hfull, hnone⟩ := PMap.exists_full
  have hkey : 2 ≤ (fnv1a64 [1]).toUInt32 := by decide
  obtain ⟨b', hset, hkeep⟩ := hb.reached.set_full hfull [1]
    (show 8 ≤ (PMap.stamped 5 [7]).length by decide)
  obtain ⟨hlen, s, hrun, hheard, hnet, hstore⟩ :=
    run_fetch ha.reached hb.reached hkey hv hnone hset
  have hfive : unixTime (PMap.stamped 5 [7]) = 5 := by decide +kernel
  refine ⟨_, s, fun i => ?_, hkey, hrun, hheard, (get_fetched hlen).trans (by rw [hfive]; rfl),
    hnet, by rw [hstore, hkeep, hnone]⟩
  cases i
  · exact hb
  · exact ha

end Reading

end Client

end Treeless
