import Treeless.Client.ReadRepair
import Treeless.Com.Protocol
import Treeless.PMap.Forwards

/-!
# Dist/Handover — a chunk is copied to a new holder, and both are in use

    source:  Iterate ──pair──► Set | AsyncSet ──► wire ──► Set  :destination
               ▲                                            ▲
         other requests                               other requests

`OpTransfer` goes through the log of a chunk and sends every pair it is handed to the server that
asked for the chunk.  Neither chunk is locked for the time of the transfer: the source serves
requests between two pairs, and the destination, a holder already, serves those of the clients.  A
pair that was handed out is on the wire, or the destination has its key at least as new
(`Carries`); when the iteration has returned and the wire is empty, that holds of all that is live
on the source (`handover_complete`).
-/

namespace Treeless

/-- A `Set` on its way to the destination. -/
structure Parcel where
  type : Operation
  key : Bytes
  value : Bytes

/-- `Conn.Set`: without a timeout no answer is asked for. -/
def Parcel.set (key value : Bytes) (timeout : ℕ) : Parcel :=
  ⟨if timeout = 0 then Operation.asyncSet else Operation.set, key, value⟩

/-- A transfer under way: the iteration over the source's chunk, the messages that the destination
has not served, in the order in which they were sent, and the destination's chunk. -/
structure Handover where
  source : Walk
  wire : List Parcel
  dest : PMap

namespace Handover

/-- A transfer about to start. -/
def start (pm dest : PMap) : Handover := ⟨.start pm, [], dest⟩

/-- What the callback sends for the `i`-th pair: of every hundred messages one is waited for, for
500 milliseconds at most. -/
def callback (pair : Bytes × Bytes) (i : ℕ) : Parcel :=
  if i % 100 = 0 then .set pair.1 pair.2 500 else .set pair.1 pair.2 0

/-- The messages for the pairs that are handed out from the `i`-th on. -/
def parcels (i : ℕ) (sent : List (Bytes × Bytes)) : List Parcel :=
  ((sent.drop i).zipIdx i).map fun p => callback p.1 p.2

/-- What may happen during a transfer. -/
inductive Event
  /-- A turn of the iteration. -/
  | turn
  /-- The source serves a request. -/
  | source (ev : Op × Option Error)
  /-- The destination serves the first message of the wire. -/
  | deliver (p : Parcel) (e : Option Error)
  /-- The destination serves a request of another client. -/
  | dest (ev : Op × Option Error)

/-- The event takes the transfer from `s` to `s'`. -/
def Steps (s : Handover) : Event → Handover → Prop
  | .turn, s' => ∃ w, s.source.Steps none w
    ∧ s' = { s with source := w, wire := s.wire ++ parcels s.source.sent.length w.sent }
  | .source ev, s' => ∃ w, s.source.Steps (some ev) w ∧ s' = { s with source := w }
  | .deliver p e, s' => ∃ wire c, s.wire = p :: wire
    ∧ s.dest.set (fnv1a64 p.key) p.key p.value = .ok (e, c) ∧ s' = ⟨s.source, wire, c⟩
  | .dest ev, s' => ∃ c, PMap.Returned fnv1a64 s.dest ev c ∧ s' = { s with dest := c }

/-! ## The messages -/

@[simp] theorem key_callback (pair : Bytes × Bytes) (i : ℕ) : (callback pair i).key = pair.1 := by
  rw [callback]
  split <;> rfl

@[simp] theorem value_callback (pair : Bytes × Bytes) (i : ℕ) :
    (callback pair i).value = pair.2 := by
  rw [callback]
  split <;> rfl

/-- Every pair handed out from the `i`-th on is in a message. -/
theorem exists_parcel {sent new : List (Bytes × Bytes)} {k v : Bytes} (h : (k, v) ∈ new) :
    ∃ p ∈ parcels sent.length (sent ++ new), p.key = k ∧ p.value = v := by
  obtain ⟨i, hi⟩ := List.mem_iff_getElem?.mp h
  refine ⟨callback (k, v) (sent.length + i), ?_, key_callback .., value_callback ..⟩
  rw [parcels, List.drop_left]
  refine List.mem_map.mpr ⟨((k, v), sent.length + i), ?_, rfl⟩
  rw [List.mem_zipIdx_iff_le_and_getElem?_sub]
  exact ⟨Nat.le_add_right .., by rwa [Nat.add_sub_cancel_left]⟩

/-! ## The invariant -/

end Handover

/-- A turn hands out a pair, or nothing. -/
theorem Walk.exists_sent_of_turn {w w' : Walk} (h : w.turn = .ok w') :
    ∃ new, w'.sent = w.sent ++ new := by
  obtain ⟨pm, cursor, sent⟩ := w
  cases cursor with
  | idle =>
    cases h
    exact ⟨[], (List.append_nil _).symm⟩
  | «at» index =>
    rw [turn] at h
    dsimp only at h
    split at h
    · obtain ⟨pair, -, h⟩ := Call.bind_eq_ok.mp h
      cases h
      exact ⟨pair.toList, rfl⟩
    · cases h
      exact ⟨[], (List.append_nil _).symm⟩
  | past index =>
    obtain ⟨index', -, h⟩ := Call.bind_eq_ok.mp h
    cases h
    exact ⟨[], (List.append_nil _).symm⟩
  | done =>
    cases h
    exact ⟨[], (List.append_nil _).symm⟩

/-- **When the iteration has returned**, every live pair has been handed out. -/
theorem Walk.Covers.mem_sent {w : Walk} {log : List Record} {m : Dict} {front : ℕ}
    (h : w.Covers log m front) (hdone : w.cursor = .done) {k v : Bytes}
    (hword : 2 ≤ (fnv1a64 k).toUInt32) (hk : m k = some v) : (k, v) ∈ w.sent := by
  refine (h.accounts k v hk hword).resolve_right ?_
  rintro ⟨off, hle, hoff⟩
  have hend := add_size_le_of_recordAt hoff
  have h12 := (Record.mk k v).twelve_le_size
  have hfront := h.isFront
  rw [hdone] at hfront
  cases hfront
  omega

namespace Handover

variable {s s' : Handover} {k : Bytes}

/-- What has been handed out of the key is on the wire, or the destination has it as new. -/
structure Carries (k : Bytes) (s : Handover) : Prop where
  covers : ∃ log m front, s.source.Covers log m front
  reached : s.dest.Reached fnv1a64
  carried : ∀ v, (k, v) ∈ s.source.sent → 8 ≤ v.length →
    s.dest.Holds k (unixTime v) ∨ ∃ p ∈ s.wire, p.key = k ∧ p.value = v

/-- The destination does nothing to the key but set it, and takes what it is sent of it. -/
def Event.Spares (k : Bytes) : Event → Prop
  | .deliver p e => p.key = k → e ≠ some .storeLimit ∧ e ≠ some .hashMapLimit
  | .dest ev => ev.1.Spares k
  | _ => True

theorem carries_start {size : ℕ} (hsize : size ≤ 2 ^ 32) {pm dest : PMap}
    (hpm : PMap.Reachable size pm) (hdest : dest.Reached fnv1a64) : (start pm dest).Carries k := by
  obtain ⟨log, m, h⟩ := hpm.filing hsize
  exact ⟨⟨log, m, 0, Walk.covers_start h⟩, hdest, fun v hv => (by cases hv)⟩

/-- **A turn**: what it hands out goes on the wire. -/
theorem Carries.turn (h : s.Carries k) {w : Walk} (hs : s.source.turn = .ok w) :
    Carries k { s with source := w, wire := s.wire ++ parcels s.source.sent.length w.sent } := by
  obtain ⟨log, m, front, hcov⟩ := h.covers
  obtain ⟨front', hcov'⟩ := hcov.turn hs
  refine ⟨⟨log, m, front', hcov'⟩, h.reached, fun v hv hlen => ?_⟩
  dsimp only at hv ⊢
  obtain ⟨new, hnew⟩ := Walk.exists_sent_of_turn hs
  rw [hnew] at hv ⊢
  rcases List.mem_append.mp hv with hold | hadd
  · refine (h.carried v hold hlen).imp_right ?_
    rintro ⟨p, hp, hpkey⟩
    exact ⟨p, List.mem_append_left _ hp, hpkey⟩
  · obtain ⟨p, hp, hpkey⟩ := exists_parcel hadd
    exact Or.inr ⟨p, List.mem_append_right _ hp, hpkey⟩

/-- **The source serves a request**, and hands out nothing. -/
theorem Carries.source (h : s.Carries k) {ev : Op × Option Error} {w : Walk}
    (hs : s.source.Steps (some ev) w) : Carries k { s with source := w } := by
  obtain ⟨hcursor, hret, hcursor', hsent⟩ := hs
  obtain ⟨log, m, front, hcov⟩ := h.covers
  obtain ⟨log', m', hcov'⟩ := hcov.request hcursor hret
  obtain ⟨pm, cursor, sent⟩ := w
  dsimp only at hcursor' hsent
  subst hcursor' hsent
  exact ⟨⟨log', m', front, hcov'⟩, h.reached, h.carried⟩

/-- **The destination serves a message**, and meets no limit if it is about the key. -/
theorem Carries.deliver (h : s.Carries k) {p : Parcel} {wire : List Parcel} {e : Option Error}
    {c : PMap} (hwire : s.wire = p :: wire)
    (hs : s.dest.set (fnv1a64 p.key) p.key p.value = .ok (e, c))
    (hlim : p.key = k → e ≠ some .storeLimit ∧ e ≠ some .hashMapLimit) :
    Carries k ⟨s.source, wire, c⟩ := by
  have hret : PMap.Returned fnv1a64 s.dest (.set p.key p.value, e) c := hs
  refine ⟨h.covers, h.reached.run (.cons hret (.refl _)), fun v hv hlen => ?_⟩
  rcases h.carried v hv hlen with hhold | ⟨q, hq, hqkey, hqval⟩
  · exact Or.inl (hhold.set h.reached hret)
  · rw [hwire] at hq
    rcases List.mem_cons.mp hq with rfl | hq
    · obtain ⟨hput, hmap⟩ := hlim hqkey
      subst hqkey hqval
      exact Or.inl (h.reached.holds_of_set hlen hret hmap hput)
    · exact Or.inr ⟨q, hq, hqkey, hqval⟩

/-- **The destination serves another client**, and spares the key. -/
theorem Carries.dest (h : s.Carries k) {ev : Op × Option Error} {c : PMap} (hev : ev.1.Spares k)
    (hs : PMap.Returned fnv1a64 s.dest ev c) : Carries k { s with dest := c } :=
  ⟨h.covers, h.reached.run (.cons hs (.refl _)), fun v hv hlen =>
    (h.carried v hv hlen).imp_left fun hold => hold.request h.reached hev hs⟩

/-- **One event.** -/
theorem Carries.step (h : s.Carries k) {ev : Event} (hev : ev.Spares k) (hs : Steps s ev s') :
    s'.Carries k := by
  cases ev with
  | turn =>
    obtain ⟨w, hw, rfl⟩ := hs
    exact h.turn hw.2
  | source ev =>
    obtain ⟨w, hw, rfl⟩ := hs
    exact h.source hw
  | deliver p e =>
    obtain ⟨wire, c, hwire, hset, rfl⟩ := hs
    exact h.deliver hwire hset hev
  | dest ev =>
    obtain ⟨c, hret, rfl⟩ := hs
    exact h.dest hev hret

/-! ## The end -/

/-- **A transfer loses nothing.**  Whatever requests the source serves between the turns of the
iteration, and the destination between the messages: when the iteration has returned and the
messages have been served, every pair that was live on the source when it returned is on the
destination, or a newer one of its key, provided that the destination was not asked to delete the
key or to compare and swap it, and met no limit at a message about it. -/
theorem handover_complete {size : ℕ} (hsize : size ≤ 2 ^ 32) {pm dest : PMap}
    (hpm : PMap.Reachable size pm) (hdest : dest.Reached fnv1a64) {evs : List Event}
    (hrun : Run Steps (start pm dest) evs s) (hdone : s.source.cursor = .done)
    (hwire : s.wire = []) (hword : 2 ≤ (fnv1a64 k).toUInt32) (hevs : ∀ ev ∈ evs, ev.Spares k)
    {v : Bytes} (hlive : s.source.pm.get (fnv1a64 k).toUInt32 k = .ok (some v))
    (hlen : 8 ≤ v.length) :
    ∃ w, s.dest.get (fnv1a64 k).toUInt32 k = .ok (some w) ∧ unixTime v ≤ unixTime w := by
  have h : s.Carries k := hrun.invariant_on (fun hev h hs => h.step hev hs) hevs
    (carries_start hsize hpm hdest)
  obtain ⟨log, m, front, hcov⟩ := h.covers
  have hk : m k = some v := Except.ok.inj ((hcov.filing.ordered.get_eq hword).symm.trans hlive)
  have hsent := hcov.mem_sent hdone hword hk
  have hhold : s.dest.Holds k (unixTime v) := (h.carried v hsent hlen).resolve_right fun hp => by
    obtain ⟨p, hp, -⟩ := hp
    rw [hwire] at hp
    cases hp
  obtain ⟨w, hw, hle⟩ := hhold
  obtain ⟨L, hr, -⟩ := h.reached.exists_refines
  exact ⟨w, by rw [hr.toDenotes.get_eq hword, ← congrFun hr.value_eq k, hw], hle⟩

/-- The source gets a pair before the transfer and one in its midst, and the destination serves the
message of the first before the second is handed out. -/
def overtaking : List Event :=
  [.source (.set [1] (PMap.stamped 5 [7]), none), .turn, .turn,
    .source (.set [2] (PMap.stamped 6 [8]), none), .turn,
    .deliver (callback ([1], PMap.stamped 5 [7]) 0) none, .turn, .turn, .turn,
    .deliver (callback ([2], PMap.stamped 6 [8]) 1) none]

theorem handover_complete_overtaken : ∃ s,
    Run Steps (start (.new "" 100) (.new "" 100)) overtaking s
    ∧ s.source.cursor = .done ∧ s.wire = []
    ∧ (∃ w, s.dest.get (fnv1a64 [1]).toUInt32 [1] = .ok (some w) ∧ 5 ≤ unixTime w)
    ∧ ∃ w, s.dest.get (fnv1a64 [2]).toUInt32 [2] = .ok (some w) ∧ 6 ≤ unixTime w := by
  obtain ⟨c₁, c₂, h⟩ := Walk.exists_overtaken
  have hlen₁ := h.length₁
  have hlen₂ := h.length₂
  -- both chunks are set to the same pairs, in the same order
  have hrun : Run Steps (start (.new "" 100) (.new "" 100)) overtaking
      ⟨⟨c₂, .done, [([1], PMap.stamped 5 [7]), ([2], PMap.stamped 6 [8])]⟩, [], c₂⟩ :=
    .cons ⟨⟨c₁, .idle, []⟩, ⟨by rintro ⟨⟩, h.set₁, rfl, rfl⟩, rfl⟩
      (.cons ⟨_, Walk.steps_first, rfl⟩ (.cons ⟨_, Walk.steps_look (by omega) h.pair₁, rfl⟩
      (.cons ⟨⟨c₂, .past 0, [([1], PMap.stamped 5 [7])]⟩, ⟨by rintro ⟨⟩, h.set₂, rfl, rfl⟩, rfl⟩
      (.cons ⟨_, Walk.steps_move h.next₁, rfl⟩ (.cons ⟨[], c₁, rfl, h.set₁, rfl⟩
      (.cons ⟨_, Walk.steps_look (by omega) h.pair₂, rfl⟩
      (.cons ⟨_, Walk.steps_move h.next₂, rfl⟩ (.cons ⟨_, Walk.steps_last (by omega), rfl⟩
      (.cons ⟨[], c₂, rfl, h.set₂, rfl⟩ (.refl _))))))))))
  have hreached : PMap.Reached fnv1a64 (.new "" 100) := ⟨"", 100, [], by decide, .refl _⟩
  have hspares : ∀ k, ∀ ev ∈ overtaking, Event.Spares k ev := by
    simp [overtaking, Event.Spares]
  have hfive : unixTime (PMap.stamped 5 [7]) = 5 := by decide +kernel
  have hsix : unixTime (PMap.stamped 6 [8]) = 6 := by decide +kernel
  refine ⟨_, hrun, rfl, rfl, ?_, ?_⟩
  · rw [← hfive]
    exact handover_complete (by decide) (.new "") hreached hrun rfl rfl (by decide)
      (hspares [1]) h.live₁ (by decide)
  · rw [← hsix]
    exact handover_complete (by decide) (.new "") hreached hrun rfl rfl (by decide)
      (hspares [2]) h.live₂ (by decide)

end Handover

end Treeless
