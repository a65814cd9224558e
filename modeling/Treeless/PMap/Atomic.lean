import Treeless.PMap.Runs

/-!
# PMap/Atomic — what a failed request leaves behind

A request that returns an error should change nothing but the layout of the bucket array
(`Atomic`).  A `Set` keeps to this.  A `Del` whose tombstone is denied has already removed the pair;
a `CAS` whose record is denied has already taken the old value out of the checksum.
-/

namespace Treeless

namespace SyncChecksum

/-- The three accumulators. -/
def accumulators (s : SyncChecksum) : UInt64 × UInt64 × UInt64 :=
  (s.newChecksum, s.mediumChecksum, s.oldChecksum)

/-- **A delta taken back shows** unless it is zero and moves no window that differs. -/
theorem accumulators_sub_iff (s : SyncChecksum) (el : UInt64) (t : Time) :
    (s.sub el t).accumulators = s.accumulators
      ↔ el = 0 ∧ (s.newTime < t → s.newChecksum = s.mediumChecksum
          ∧ s.mediumChecksum = s.oldChecksum) := by
  have hnew : (s.sub el t).newChecksum = s.newChecksum ↔ el = 0 := by
    rw [newChecksum_sub]
    grind
  constructor
  · intro h
    obtain ⟨h1, h2⟩ := Prod.mk.inj h
    obtain ⟨h2, h3⟩ := Prod.mk.inj h2
    obtain rfl := hnew.mp h1
    refine ⟨rfl, fun hlt => ?_⟩
    simp only [sub, sum, shift, if_pos hlt, UInt64.neg_zero, UInt64.add_zero, ite_self] at h2 h3
    exact ⟨h2, h3⟩
  · rintro ⟨rfl, h⟩
    simp only [accumulators, sub, sum, shift, UInt64.neg_zero, UInt64.add_zero, ite_self]
    split
    · next hlt =>
      obtain ⟨h1, h2⟩ := h hlt
      simp [h1, h2]
    · simp

end SyncChecksum

namespace Ledger

/-- When a `CAS` is denied by the store. -/
theorem answer_cas_storeLimit (L : Ledger) (full : Bool) (k v : Bytes) :
    L.answer full (.cas k v) = some .storeLimit
      ↔ 24 ≤ v.length ∧ full = false ∧ casTest (L.dict k) v = none ∧ ¬ L.Room k (v.drop 16) := by
  by_cases hv : v.length < 24
  · rw [answer, if_pos hv]
    exact ⟨fun h => (by cases h), fun h => absurd h.1 (not_le.mpr hv)⟩
  cases full with
  | true =>
    rw [answer, if_neg hv, if_pos rfl]
    exact ⟨fun h => (by cases h), fun h => by cases h.2.1⟩
  | false =>
    rw [L.answer_cas rfl hv]
    cases htest : casTest (L.dict k) v with
    | some e =>
      exact ⟨fun h => absurd (htest.trans h) (casTest_ne_storeLimit _ _),
        fun h => by cases h.2.2.1⟩
    | none =>
      dsimp only
      rw [putAnswer]
      split
      · next hroom => exact ⟨fun h => (by cases h), fun h => absurd hroom h.2.2.2⟩
      · next hroom => exact ⟨fun _ => ⟨not_lt.mp hv, rfl, rfl, hroom⟩, fun _ => rfl⟩

end Ledger

namespace PMap

variable {hash : Bytes → UInt64} {path : String} {size : ℕ} {c c' : PMap} {L : Ledger}
  {evs : List (Op × Option Error)} {op : Op} {e : Error}

/-- Nothing changed from `c` to `c'` but the layout of the bucket array. -/
def Atomic (c c' : PMap) : Prop :=
  c'.value = c.value ∧ c'.st = c.st ∧ c'.checksum.accumulators = c.checksum.accumulators

/-- A failed request that shows: any `Del`; a `CAS` that passed its tests on a present key and was
denied its record, unless the old value's part in the checksum is zero and moves no window that
differs. -/
def Spoils (hash : Bytes → UInt64) (c : PMap) : Op → Prop
  | .set _ _ => False
  | .cas k v => ∃ old, c.value k = some old ∧ 24 ≤ v.length ∧ c.hm.full = false
      ∧ Ledger.casTest (some old) v = none
      ∧ c.st.size ≤ c.st.length + (12 + k.length + (v.length - 16))
      ∧ ¬ (hash k = uint64 old ∧ (c.checksum.newTime < unixTime (v.drop 16) →
        c.checksum.newChecksum = c.checksum.mediumChecksum
          ∧ c.checksum.mediumChecksum = c.checksum.oldChecksum))
  | .del _ _ => True

/-- **A failed request** answers as the ledger does, and leaves what the ledger leaves. -/
theorem refines_of_failed (h : c.Refines hash L) (hop : op.Timed)
    (hx : c.apply hash op = .ok (some e, c')) :
    some e = L.answer c.hm.full op ∧ c'.Refines hash (L.apply hash (op, some e))
      ∧ Moves (fun n => HashMap.Grown n c.hm) c.st L c' (L.apply hash (op, some e)) := by
  rcases apply_spec h hop with ⟨-, hover⟩ | ⟨c₁, hx₁, hr, -, hm⟩
  · cases (hover _ _ hx).1
  · obtain ⟨he, rfl⟩ := Prod.mk.inj (Except.ok.inj (hx.symm.trans hx₁))
    rw [← he] at hr hm
    exact ⟨he, hr, hm⟩

/-- The same ledger but for the checksum: the same store. -/
theorem st_eq_of_moves {L' : Ledger} (h : c.Refines hash L) (h' : c'.Refines hash L')
    (hm : Moves (fun n => HashMap.Grown n c.hm) c.st L c' L')
    (hlog : L'.log = L.log) (hsize : L'.size = L.size) (hdel : L'.deleted = L.deleted) :
    c'.st = c.st := by
  have hfile : c'.st.file = c.st.file := by
    rcases hm with ⟨-, hfile, -⟩ | ⟨r, hr, -⟩
    · exact hfile
    · rw [hlog] at hr
      exact absurd hr (by simp)
  have hlen : c'.st.length = c.st.length := by
    rw [h.isLog.length_eq, h'.isLog.length_eq, hlog]
  have hsz : c'.st.size = c.st.size := by rw [h.size_eq, h'.size_eq, hsize]
  have hd : c'.st.deleted = c.st.deleted := by rw [h.deleted_eq, h'.deleted_eq, hdel]
  exact Store.ext hd hlen hsz hfile

/-- The same dictionary and store: only the checksum is in question. -/
theorem atomic_iff {L' : Ledger} (h : c.Refines hash L) (h' : c'.Refines hash L')
    (hm : Moves (fun n => HashMap.Grown n c.hm) c.st L c' L')
    (hlog : L'.log = L.log) (hsize : L'.size = L.size) (hdel : L'.deleted = L.deleted)
    (hdict : L'.dict = L.dict) :
    Atomic c c' ↔ L'.checksum.accumulators = L.checksum.accumulators := by
  rw [Atomic, h.value_eq, h'.value_eq, hdict, h.checksum_eq, h'.checksum_eq,
    st_eq_of_moves h h' hm hlog hsize hdel]
  exact ⟨fun h => h.2.2, fun h => ⟨rfl, rfl, h⟩⟩

/-- A `Del` that returns an error has removed a pair. -/
theorem not_atomic_of_failed_del {k v : Bytes} (h : c.Refines hash L)
    (he : some e = L.answer c.hm.full (.del k v))
    (h' : c'.Refines hash (L.apply hash (.del k v, some e))) : ¬ Atomic c c' := fun hat => by
  have hval := congrFun hat.1 k
  rw [h.value_eq, h'.value_eq, Ledger.dict_apply] at hval
  rcases Option.eq_none_or_eq_some (L.dict k) with hk | ⟨old, hk⟩
  · simp only [Ledger.answer, hk, reduceCtorEq] at he
  · by_cases hlt : unixTime v < unixTime old
    · simp only [Ledger.answer, hk, if_pos hlt, reduceCtorEq] at he
    · simp only [Dict.step, hk, if_neg hlt, Function.update_self, reduceCtorEq] at hval

/-- A `CAS` that spoils is denied by the store. -/
theorem answer_of_spoils {k v : Bytes} (h : c.Refines hash L) (hs : Spoils hash c (.cas k v)) :
    L.answer c.hm.full (.cas k v) = some .storeLimit := by
  obtain ⟨old, hk, hv, hfull, htest, hroom, -⟩ := hs
  rw [h.value_eq] at hk
  have hno : ¬ L.Room k (v.drop 16) := by
    rw [← h.room_iff, Record.size_mk, List.length_drop]
    omega
  exact (L.answer_cas_storeLimit c.hm.full k v).mpr ⟨hv, hfull, hk ▸ htest, hno⟩

/-- A `CAS` that the store denies spoils the checksum of a present key, or changes nothing. -/
theorem retract_iff_not_spoils {k v : Bytes} (h : c.Refines hash L)
    (he : L.answer c.hm.full (.cas k v) = some .storeLimit) :
    (L.apply hash (.cas k v, some .storeLimit)).checksum.accumulators = L.checksum.accumulators
      ↔ ¬ Spoils hash c (.cas k v) := by
  obtain ⟨hv, hfull, htest, hno⟩ := (L.answer_cas_storeLimit c.hm.full k v).mp he
  simp only [Ledger.apply, Ledger.retract, Spoils, h.value_eq]
  rcases Option.eq_none_or_eq_some (L.dict k) with hk | ⟨old, hk⟩
  · simp only [hk, reduceCtorEq, false_and, exists_false, not_false_eq_true]
  · rw [← h.room_iff, Record.size_mk, List.length_drop] at hno
    rw [hk] at htest
    simp only [hk, SyncChecksum.accumulators_sub_iff, UInt64.xor_eq_zero_iff,
      Option.some.injEq, exists_eq_left', h.checksum_eq]
    exact ⟨fun hA hs => hs.2.2.2.2 hA, fun hns => by_contra fun hA =>
      hns ⟨hv, hfull, htest, by omega, hA⟩⟩

/-- **When a failed request is atomic.**  In every state of a run, a request that returns an error
changes nothing but the layout of the bucket array, exactly if it does not spoil. -/
theorem failed_atomic_iff (hrun : Run (Step hash) (new path size) evs c) (hop : op.Timed)
    (hx : c.apply hash op = .ok (some e, c')) : Atomic c c' ↔ ¬ Spoils hash c op := by
  have h := refines_run hrun
  generalize (Ledger.new size).run hash evs = L at h
  obtain ⟨he, h', hm⟩ := refines_of_failed h hop hx
  cases op with
  | set k v => exact iff_of_true ((atomic_iff h h' hm rfl rfl rfl rfl).mpr rfl) id
  | del k v => exact iff_of_false (not_atomic_of_failed_del h he h') (not_not.mpr trivial)
  | cas k v =>
    by_cases hden : e = .storeLimit
    · subst hden
      rw [atomic_iff h h' hm rfl rfl rfl rfl]
      exact retract_iff_not_spoils h he.symm
    · have hL : L.apply hash (.cas k v, some e) = L := by
        cases e <;> first | exact absurd rfl hden | rfl
      rw [hL] at h' hm
      exact iff_of_true ((atomic_iff h h' hm rfl rfl rfl rfl).mpr rfl) fun hs =>
        hden (Option.some.inj (he.trans (answer_of_spoils h hs)))

/-- A full store: the `Del` returns an error, and the pair is gone. -/
theorem failed_del_removes : ∃ evs c c', Run (Step fnv1a64) (new "" 30) evs c
    ∧ c.apply fnv1a64 (.del [1] (stamped 6 [])) = .ok (some .storeLimit, c')
    ∧ c.value [1] = some (stamped 5 [7]) ∧ c'.value [1] = none ∧ ¬ Atomic c c' := by
  obtain ⟨c, hrun, hfail⟩ := exists_run fnv1a64 (new "" 30) [(.set [1] (stamped 5 [7]), none)]
    (fun c => (c.apply fnv1a64 (.del [1] (stamped 6 []))).map Prod.fst) (some .storeLimit)
    (by decide) (by decide +kernel)
  have hrun := run_step (by decide) hrun (refines_new fnv1a64 "" 30) rfl
  obtain ⟨⟨e, c'⟩, hx, rfl⟩ := Call.map_eq_ok.mp hfail
  have h := refines_run hrun
  have hbefore : c.value [1] = some (stamped 5 [7]) := by
    rw [h.value_eq, Ledger.dict_run]
    decide +kernel
  have hafter : c'.value [1] = none := by
    rw [(refines_of_failed h (by decide) hx).2.1.value_eq, Ledger.dict_apply, Ledger.dict_run]
    decide +kernel
  refine ⟨_, c, c', hrun, hx, hbefore, hafter, fun hat => ?_⟩
  cases hafter.symm.trans ((congrFun hat.1 [1]).trans hbefore)

/-- A full store: the `Set` that does not fit leaves everything as it was. -/
theorem failed_atomic_iff_full_store : ∃ evs c c', Run (Step fnv1a64) (new "" 30) evs c
    ∧ c.apply fnv1a64 (.set [2] (stamped 6 [])) = .ok (some .storeLimit, c') ∧ Atomic c c' := by
  obtain ⟨c, hrun, hfail⟩ := exists_run fnv1a64 (new "" 30) [(.set [1] (stamped 5 [7]), none)]
    (fun c => (c.apply fnv1a64 (.set [2] (stamped 6 []))).map Prod.fst) (some .storeLimit)
    (by decide) (by decide +kernel)
  have hrun := run_step (by decide) hrun (refines_new fnv1a64 "" 30) rfl
  obtain ⟨⟨e, c'⟩, hx, rfl⟩ := Call.map_eq_ok.mp hfail
  exact ⟨_, c, c', hrun, hx, (failed_atomic_iff hrun (by decide) hx).mpr id⟩

end PMap

end Treeless
