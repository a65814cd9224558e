import Treeless.Machinery.Tally
import Treeless.PMap.Iterate
import Mathlib.Algebra.Group.Int.Defs
import Mathlib.Algebra.BigOperators.Ring.Finset

/-!
# PMap/Space — the bytes that no live key uses

A record of the store is *current* if a live bucket points at it; the others are dead: pairs that
were replaced or deleted, and tombstones.  The current records are one for each live key
(`Denotes.deadBytes_eq`), so the dead bytes of a `PMap` are those of its log less those of the pairs
of its dictionary (`Wastes`).
-/

namespace Treeless

/-! ## The records of a store -/

theorem mem_located_of_recordAt : ∀ {log : List Record} {off : ℕ} {r : Record} (base : ℕ),
    recordAt log off = some r → (base + off, r) ∈ located base log
  | r₀ :: log, off, r, base, h => by
      rw [recordAt] at h
      split at h
      · next h0 =>
        rw [h0, ← Option.some.inj h]
        exact List.mem_cons_self
      · split at h
        · cases h
        · have hmem := mem_located_of_recordAt (base + r₀.size) h
          rw [show base + r₀.size + (off - r₀.size) = base + off by omega] at hmem
          exact List.mem_cons_of_mem _ hmem

theorem sum_size_located : ∀ (log : List Record) (base : ℕ),
    ((located base log).map fun p => p.2.size).sum = logSize log
  | [], _ => rfl
  | r :: log, base => by
      rw [located, List.map_cons, List.sum_cons, sum_size_located log, logSize_cons]

/-- The addresses rise. -/
theorem pairwise_located : ∀ (log : List Record) (base : ℕ),
    (located base log).Pairwise fun p q => p.1 < q.1
  | [], _ => .nil
  | r :: log, base => by
      refine .cons (fun p hp => ?_) (pairwise_located log _)
      obtain ⟨off, hoff, -⟩ := recordAt_of_located hp
      have h12 := r.twelve_le_size
      omega

namespace Store

variable {st : Store} {log : List Record}

/-- The records of the store from `index` on, with their addresses. -/
def recordsFrom (st : Store) : ℕ → ℕ → Call (List (ℕ × Record))
  | 0, _ => .error .endless
  | fuel + 1, index =>
    if index < st.length then do
      let key ← st.key index
      let val ← st.val index
      let total ← st.totalLen index
      let rest ← recordsFrom st fuel (index + (12 + total))
      return (index, ⟨key, val⟩) :: rest
    else .ok []

/-- The records of the store, with their addresses. -/
def records (st : Store) : Call (List (ℕ × Record)) := st.recordsFrom (st.length + 1) 0

theorem IsLog.recordsFrom_eq {rest : List Record} : ∀ (pre : List Record) {fuel : ℕ},
    st.IsLog (pre ++ rest) → rest.length < fuel →
      st.recordsFrom fuel (logSize pre) = .ok (located (logSize pre) rest) := by
  induction rest with
  | nil =>
    intro pre fuel h hfuel
    obtain ⟨fuel, rfl⟩ := Nat.exists_eq_succ_of_ne_zero (by omega : fuel ≠ 0)
    rw [List.append_nil] at h
    rw [recordsFrom, if_neg (by rw [h.length_eq]; omega)]
    rfl
  | cons r rest ih =>
    intro pre fuel h hfuel
    obtain ⟨fuel, rfl⟩ := Nat.exists_eq_succ_of_ne_zero (by omega : fuel ≠ 0)
    have hat := h.recordAt (recordAt_append_cons pre r rest)
    have hlt : logSize pre < st.length := by
      have h12 := r.twelve_le_size
      rw [h.length_eq, logSize_append, logSize_cons]
      omega
    have hnext : logSize pre + (12 + (r.key.length + r.val.length)) = logSize (pre ++ [r]) := by
      rw [logSize_append, logSize_cons, logSize_nil, Record.size]
      omega
    rw [List.append_cons] at h
    rw [recordsFrom, if_pos hlt, hat.key_eq, Call.ok_bind, hat.val_eq, Call.ok_bind,
      hat.header.totalLen_eq, Call.ok_bind, hnext, ih _ h (Nat.lt_of_succ_lt_succ hfuel),
      logSize_snoc]
    rfl

/-- **The records of a store are its log.** -/
theorem IsLog.records_eq (h : st.IsLog log) : st.records = .ok (located 0 log) := by
  have hcount := length_le_logSize log
  rw [← h.length_eq] at hcount
  exact IsLog.recordsFrom_eq [] h (by omega)

end Store

/-! ## Dead bytes -/

/-- The record of a pair has this many bytes. -/
def pairSize (k v : Bytes) : ℤ := (Record.mk k v).size

/-- `dead` bytes of the log are of no pair of the dictionary. -/
def Wastes (log : List Record) (m : Dict) (dead : ℕ) : Prop :=
  Tally pairSize m (logSize log - dead)

theorem wastes_nil : Wastes [] (fun _ => none) 0 := Tally.empty pairSize

/-- **One more record**, after which the key has the value `v`. -/
theorem Wastes.snoc {log : List Record} {m : Dict} {dead dead' : ℕ} (h : Wastes log m dead)
    (r : Record) (v : Option Bytes)
    (hdead : (dead' : ℤ)
      = dead + entryWeight pairSize m r.key + (r.size - v.elim 0 (pairSize r.key))) :
    Wastes (log ++ [r]) (Function.update m r.key v) dead' := by
  have hsize : (logSize (log ++ [r]) : ℤ) = logSize log + r.size := by
    rw [logSize_snoc, Nat.cast_add]
  have hsum : (logSize (log ++ [r]) : ℤ) - dead'
      = logSize log - dead - entryWeight pairSize m r.key + v.elim 0 (pairSize r.key) := by
    rw [hsize, hdead]
    omega
  rw [Wastes, hsum]
  exact h.update r.key v

/-- **Records that the dictionary knows nothing of** are dead. -/
theorem Wastes.append {log : List Record} {m : Dict} {dead : ℕ} (h : Wastes log m dead)
    (rest : List Record) : Wastes (log ++ rest) m (dead + logSize rest) := by
  have hsum : (logSize (log ++ rest) : ℤ) - (dead + logSize rest : ℕ) = logSize log - dead := by
    rw [logSize_append]
    omega
  rw [Wastes, hsum]
  exact h

/-- What is taken of a list and what is left of it. -/
theorem sum_filter_add_sum_else {α : Type*} (p : α → Prop) [DecidablePred p] (f : α → ℕ)
    (l : List α) : ((l.filter fun a => p a).map f).sum + (l.map fun a => if p a then 0 else f a).sum
      = (l.map f).sum := by
  induction l with
  | nil => rfl
  | cons a l ih =>
    rw [List.map_cons, List.map_cons, List.sum_cons, List.sum_cons, ← ih, List.filter_cons]
    by_cases ha : p a
    · rw [if_pos (decide_eq_true ha), if_pos ha, List.map_cons, List.sum_cons]
      omega
    · rw [if_neg fun hdec => ha (of_decide_eq_true hdec), if_neg ha]
      omega

namespace PMap

variable {hash : Bytes → UInt64} {c : PMap} {log : List Record} {m : Dict}

/-- A live bucket points at the address. -/
def Current (c : PMap) (a : ℕ) : Prop :=
  ∃ i < c.hm.size, 2 ≤ c.hm.getHash i ∧ (c.hm.getStoreIndex i).toNat = a

instance (c : PMap) (a : ℕ) : Decidable (c.Current a) :=
  inferInstanceAs (Decidable (∃ i < c.hm.size, _ ∧ _))

/-- The bytes of the records that are not current. -/
def deadBytes (c : PMap) : Call ℕ := do
  let records ← c.st.records
  return (records.map fun p => if c.Current p.1 then 0 else p.2.size).sum

/-- A current record is the pair of its key. -/
theorem value_of_current (h : c.hm.Files hash log m) {a : ℕ} {r : Record}
    (hr : recordAt log a = some r) (ha : c.Current a) : m r.key = some r.val := by
  obtain ⟨i, hi, hi2, rfl⟩ := ha
  exact (h.live i hi hi2 r hr).2

/-- A key has one current record. -/
theorem current_unique (h : c.hm.Files hash log m) {a a' : ℕ} {r r' : Record}
    (hr : recordAt log a = some r) (hr' : recordAt log a' = some r') (ha : c.Current a)
    (ha' : c.Current a') (hkey : r.key = r'.key) : a = a' := by
  obtain ⟨i, hi, hi2, rfl⟩ := ha
  obtain ⟨j, hj, hj2, rfl⟩ := ha'
  rw [h.unique i hi j hj hi2 hj2 r r' hr hr' hkey]

/-- The current records. -/
def currents (c : PMap) (log : List Record) : List (ℕ × Record) :=
  (located 0 log).filter fun p => c.Current p.1

theorem mem_currents {p : ℕ × Record} :
    p ∈ c.currents log ↔ recordAt log p.1 = some p.2 ∧ c.Current p.1 := by
  rw [currents, List.mem_filter, decide_eq_true_iff]
  refine and_congr_left fun _ => ⟨fun hp => ?_, fun hr => ?_⟩
  · obtain ⟨off, hoff, hr⟩ := recordAt_of_located hp
    rwa [hoff, Nat.zero_add]
  · have hmem := mem_located_of_recordAt 0 hr
    rwa [Nat.zero_add] at hmem

/-- **The current records are one for each key of the dictionary.** -/
theorem tally_currents (h : c.hm.Files hash log m) :
    Tally pairSize m ((c.currents log).map fun p => (p.2.size : ℤ)).sum := by
  have hnodup : ((c.currents log).map fun p => p.2.key).Nodup := by
    rw [List.Nodup, List.pairwise_map]
    refine ((pairwise_located log 0).filter _).imp_of_mem fun hp hq hlt hkey => ?_
    obtain ⟨hp, hcp⟩ := mem_currents.mp hp
    obtain ⟨hq, hcq⟩ := mem_currents.mp hq
    exact hlt.ne (current_unique h hp hq hcp hcq hkey)
  have hsum : ((c.currents log).map fun p => (p.2.size : ℤ))
      = ((c.currents log).map fun p => p.2.key).map (entryWeight pairSize m) := by
    rw [List.map_map]
    refine List.map_congr_left fun p hp => ?_
    obtain ⟨hr, hcur⟩ := mem_currents.mp hp
    rw [Function.comp_apply, entryWeight, value_of_current h hr hcur]
    rfl
  refine ⟨((c.currents log).map fun p => p.2.key).toFinset, fun k => ?_, ?_⟩
  · rw [List.mem_toFinset, List.mem_map]
    constructor
    · rintro ⟨p, hp, rfl⟩
      obtain ⟨hr, hcur⟩ := mem_currents.mp hp
      exact value_of_current h hr hcur ▸ Option.some_ne_none _
    · intro hk
      obtain ⟨v, hv⟩ := Option.ne_none_iff_exists'.mp hk
      obtain ⟨i, hi, hi2, hr⟩ := h.mem k v hv
      exact ⟨(_, ⟨k, v⟩), mem_currents.mpr ⟨hr, i, hi, hi2, rfl⟩, rfl⟩
  · rw [hsum, List.sum_toFinset _ hnodup]

/-- **The dead bytes** are those of the log less those of the dictionary. -/
theorem deadBytes_of_files (h : c.hm.Files hash log m) (hlog : c.st.IsLog log) {dead : ℕ}
    (hd : Wastes log m dead) : c.deadBytes = .ok dead := by
  have hall := sum_filter_add_sum_else (fun p : ℕ × Record => c.Current p.1) (fun p => p.2.size)
    (located 0 log)
  rw [sum_size_located] at hall
  have hlive : (logSize log : ℤ) - dead = ((c.currents log).map fun p => p.2.size).sum := by
    rw [hd.eq_of_weight_eq (tally_currents h) fun _ => rfl, Nat.cast_list_sum, List.map_map]
    rfl
  rw [deadBytes, hlog.records_eq, Call.ok_bind]
  refine congrArg Except.ok ?_
  rw [currents] at hlive
  omega

theorem Denotes.deadBytes_eq (h : c.Denotes hash log m) {dead : ℕ} (hd : Wastes log m dead) :
    c.deadBytes = .ok dead := deadBytes_of_files h.index.files h.isLog hd

end PMap

end Treeless
