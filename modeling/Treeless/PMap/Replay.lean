import Mathlib.Data.Set.Card
import Treeless.PMap.Runs

/-!
# PMap/Replay — what the log alone says

`Replay` is the state of a reader that goes through the records in order, with no timestamps
compared: the dictionary, the sum of the checksum, and how far a bucket array filled by this reading
has grown.  Along a run in which no `put` is denied, the log says what the `PMap` is
(`Mirrors`): the same dictionary, the same sum, and an array at most one doubling ahead of the
`PMap`'s own.
-/

namespace Treeless

/-- The number of keys of a dictionary. -/
noncomputable def Dict.count (m : Dict) : ℕ := {k | m k ≠ none}.ncard

/-- **The live buckets are as many as the keys.** -/
theorem HashMap.Indexes.liveCount_eq {hash : Bytes → UInt64} {hm : HashMap} {log : List Record}
    {m : Dict} (h : hm.Indexes hash log m) : hm.liveCount = m.count := by
  let s := (Finset.range hm.size).filter fun i => 2 ≤ hm.getHash i
  let f : ℕ → Bytes := fun i => ((hm.target log i).map Record.key).getD []
  have hmem : ∀ {i}, i ∈ s ↔ i < hm.size ∧ 2 ≤ hm.getHash i := fun {i} => by
    rw [Finset.mem_filter, Finset.mem_range]
  have hf : ∀ {i r}, hm.target log i = some r → f i = r.key := fun hr => by
    simp only [f, hr, Option.map_some, Option.getD_some]
  have hkeys : {k | m k ≠ none} = ((s.image f : Finset Bytes) : Set Bytes) := by
    ext k
    rw [Set.mem_ofPred_eq, Finset.mem_coe, Finset.mem_image]
    constructor
    · intro hk
      obtain ⟨v, hv⟩ := Option.ne_none_iff_exists'.mp hk
      obtain ⟨i, hi, hi2, hr⟩ := h.mem k v hv
      exact ⟨i, hmem.mpr ⟨hi, hi2⟩, hf hr⟩
    · rintro ⟨i, hi, rfl⟩
      obtain ⟨hi, hi2⟩ := hmem.mp hi
      obtain ⟨r, hr⟩ := h.tagged i hi (not_free_of_two_le hi2)
      rw [hf hr, (h.live i hi hi2 r hr).2.1]
      exact Option.some_ne_none _
  have hinj : Set.InjOn f s := fun i hi j hj heq => by
    obtain ⟨hi, hi2⟩ := hmem.mp hi
    obtain ⟨hj, hj2⟩ := hmem.mp hj
    obtain ⟨r, hr⟩ := h.tagged i hi (not_free_of_two_le hi2)
    obtain ⟨r', hr'⟩ := h.tagged j hj (not_free_of_two_le hj2)
    rw [hf hr, hf hr'] at heq
    exact h.unique i hi j hj hi2 hj2 r r' hr hr' heq
  rw [Dict.count, hkeys, Set.ncard_coe_finset, Finset.card_image_of_injOn hinj]
  rfl

/-- The number of keys at which an array of `2 ^ log2` buckets is full. -/
def capacity (log2 : ℕ) : ℕ := 2 ^ log2 * 7 / 10

theorem HashMap.Shaped.full_eq_capacity {hm : HashMap} (h : hm.Shaped) :
    hm.numKeysToExpand = capacity hm.sizelog2 := by
  rw [h.full_eq, h.size_eq, capacity]

theorem capacity_lt_succ (n : ℕ) : capacity n < capacity (n + 1) := by
  have hpos : 0 < 2 ^ n := Nat.two_pow_pos n
  rw [capacity, capacity, pow_succ]
  rcases Nat.lt_or_ge (2 ^ n) 2 with h | h <;> omega

/-- What a reader of the records knows. -/
structure Replay where
  dict : Dict
  sum : UInt64
  /-- The logarithm of the size of the array it fills. -/
  log2 : ℕ
  /-- The number of buckets in use. -/
  stored : ℕ

namespace Replay

variable (hash : Bytes → UInt64)

/-- Before the first record. -/
def start : Replay := ⟨fun _ => none, 0, defaultHashMapInitialLog2Size, 0⟩

/-- The check for space. -/
noncomputable def space (R : Replay) : Replay :=
  if capacity R.log2 ≤ R.stored then { R with log2 := R.log2 + 1, stored := R.dict.count } else R

/-- Reads a record. -/
noncomputable def step (R : Replay) (r : Record) : Replay :=
  match R.dict r.key with
  | none =>
    { dict := Function.update R.dict r.key (some r.val)
      sum := R.sum + (hash r.key ^^^ uint64 r.val)
      log2 := R.space.log2
      stored := R.space.stored + 1 }
  | some old =>
    { dict := Function.update R.dict r.key (if r.val = [] then none else some r.val)
      sum := R.sum - (hash r.key ^^^ uint64 old)
        + (if r.val = [] then 0 else hash r.key ^^^ uint64 r.val)
      log2 := R.space.log2
      stored := R.space.stored }

/-- The array is full, and as large as it gets. -/
def Full (R : Replay) : Prop := 26 ≤ R.log2 ∧ capacity R.log2 ≤ R.stored

instance (R : Replay) : Decidable R.Full := inferInstanceAs (Decidable (_ ∧ _))

/-- The records from the first one on that finds the array full. -/
noncomputable def unread : Replay → List Record → List Record
  | _, [] => []
  | R, r :: log => if R.Full then r :: log else unread (R.step hash r) log

/-- A record a run can write: of a key, with a timestamp, or the tombstone of a present key. -/
def Proper (R : Replay) (r : Record) : Prop :=
  r.key ≠ [] ∧ (8 ≤ r.val.length ∨ (r.val = [] ∧ R.dict r.key ≠ none))

/-- Every record is proper when it is read. -/
def Reads : Replay → List Record → Prop
  | _, [] => True
  | R, r :: log => R.Proper r ∧ Reads (R.step hash r) log

variable {hash}

/-- What a record that a run can write does to the dictionary. -/
theorem dict_step {R : Replay} {r : Record} (hr : R.Proper r) : (R.step hash r).dict
    = Function.update R.dict r.key (if r.val = [] then none else some r.val) := by
  rw [step]
  rcases Option.eq_none_or_eq_some (R.dict r.key) with hk | ⟨old, hk⟩ <;> rw [hk]
  have hne : r.val ≠ [] := fun h0 => by
    rcases hr.2 with hv | ⟨-, hne⟩
    · rw [h0] at hv
      exact absurd hv (by decide)
    · exact hne hk
  rw [if_neg hne]

theorem reads_snoc {R : Replay} {log : List Record} {r : Record} :
    Reads hash R (log ++ [r]) ↔ Reads hash R log ∧ (log.foldl (step hash) R).Proper r := by
  induction log generalizing R with
  | nil => simp [Reads]
  | cons r' log ih => rw [List.cons_append, Reads, Reads, ih, List.foldl_cons, and_assoc]

theorem reads_of_append {R : Replay} {log rest : List Record} (h : Reads hash R (log ++ rest)) :
    Reads hash R log := by
  induction log generalizing R with
  | nil => trivial
  | cons r log ih => exact ⟨h.1, ih h.2⟩

theorem key_ne_of_reads {R : Replay} {log : List Record} (h : Reads hash R log) :
    ∀ r ∈ log, r.key ≠ [] := by
  induction log generalizing R with
  | nil => exact fun r hr => (nomatch hr)
  | cons r' log ih => exact List.forall_mem_cons.mpr ⟨h.1.1, ih h.2⟩

theorem log2_step (R : Replay) (r : Record) : (R.step hash r).log2 = R.space.log2 := by
  rw [step]
  split <;> rfl

/-- An array that is not full does not get larger than it may. -/
theorem log2_step_le {R : Replay} (hlevel : R.log2 ≤ 26) (hfull : ¬ R.Full) (r : Record) :
    (R.step hash r).log2 ≤ 26 := by
  rw [log2_step, space]
  split
  · next hst =>
    have hlt : R.log2 < 26 := not_le.mp fun hle => hfull ⟨hle, hst⟩
    exact hlt
  · exact hlevel

variable (hash) in
/-- **The records before those that are left unread** do not make the array too large, and if any
are left they make it full. -/
theorem exists_read {R : Replay} (hlevel : R.log2 ≤ 26) (log : List Record) :
    ∃ read, read ++ unread hash R log = log ∧ (read.foldl (step hash) R).log2 ≤ 26
      ∧ (unread hash R log = [] ∨ (read.foldl (step hash) R).Full) := by
  induction log generalizing R with
  | nil => exact ⟨[], rfl, hlevel, Or.inl rfl⟩
  | cons r log ih =>
    rw [unread]
    split
    · next hfull => exact ⟨[], rfl, hlevel, Or.inr hfull⟩
    · next hfull =>
      obtain ⟨read, heq, hread, hend⟩ := ih (log2_step_le hlevel hfull r)
      exact ⟨r :: read, by rw [List.cons_append, heq], hread, hend⟩

theorem log2_le_step (R : Replay) (r : Record) : R.log2 ≤ (R.step hash r).log2 := by
  rw [log2_step, space]
  split
  · exact Nat.le_succ _
  · exact le_rfl

theorem log2_le_foldl (R : Replay) (log : List Record) :
    R.log2 ≤ (log.foldl (step hash) R).log2 := by
  induction log generalizing R with
  | nil => exact le_rfl
  | cons r log ih => exact (log2_le_step R r).trans (ih _)

theorem stored_step (R : Replay) (r : Record) :
    (R.step hash r).stored = R.space.stored + if R.dict r.key = none then 1 else 0 := by
  rw [step]
  cases R.dict r.key with
  | none => rfl
  | some old => rfl

/-- The array filled by reading is at most one doubling ahead of `hm`, and then no fuller. -/
def Ahead (R : Replay) (hm : HashMap) : Prop :=
  R.log2 ≤ hm.sizelog2 ∨ (R.log2 = hm.sizelog2 + 1 ∧ R.stored ≤ hm.numStoredKeys)

theorem Ahead.grown {R : Replay} {hm hm' : HashMap} (h : R.Ahead hm)
    (hg : HashMap.Grown 0 hm hm') : R.Ahead hm' := by
  rcases h with h | ⟨h, hst⟩ <;> rcases hg with ⟨hlt, -⟩ | ⟨heq, hst'⟩
  · exact Or.inl (h.trans hlt.le)
  · exact Or.inl (heq ▸ h)
  · exact Or.inl (h ▸ hlt)
  · exact Or.inr ⟨heq ▸ h, by omega⟩

/-- **Reading a record that the `PMap` has just written keeps the reader at most one doubling
ahead.** -/
theorem Ahead.step {R : Replay} {hm hm' : HashMap} (h : R.Ahead hm) (hv : hm.Valid)
    (hcount : R.dict.count ≤ hm.numStoredKeys) {r : Record}
    (hg : HashMap.Grown (if R.dict r.key = none then 1 else 0) hm hm') :
    (R.step hash r).Ahead hm' := by
  have hload := hv.load
  rw [hv.full_eq_capacity] at hload
  have hcap := capacity_lt_succ hm.sizelog2
  rw [Ahead, log2_step, stored_step, space]
  generalize (if R.dict r.key = none then 1 else 0) = n at hg ⊢
  by_cases hfull : capacity R.log2 ≤ R.stored
  · rw [if_pos hfull]
    dsimp only
    have hle : R.log2 ≤ hm.sizelog2 := by
      rcases h with h | ⟨h, hst⟩
      · exact h
      · rw [h] at hfull
        omega
    rcases hg with ⟨hlt, -⟩ | ⟨heq, hst⟩
    · exact Or.inl (by omega)
    · rcases hle.lt_or_eq with hlt | hR
      · exact Or.inl (by omega)
      · exact Or.inr ⟨by omega, by omega⟩
  · rw [if_neg hfull]
    rcases h with h | ⟨h, hst'⟩ <;> rcases hg with ⟨hlt, -⟩ | ⟨heq, hst⟩
    · exact Or.inl (by omega)
    · exact Or.inl (by omega)
    · exact Or.inl (by omega)
    · exact Or.inr ⟨by omega, by omega⟩

end Replay

/-- What the log of a ledger says to a reader. -/
noncomputable def replay (hash : Bytes → UInt64) (log : List Record) : Replay :=
  log.foldl (Replay.step hash) .start

theorem replay_snoc (hash : Bytes → UInt64) (log : List Record) (r : Record) :
    replay hash (log ++ [r]) = (replay hash log).step hash r := by
  rw [replay, List.foldl_append]
  rfl

namespace PMap

variable {hash : Bytes → UInt64} {c c' : PMap} {L L' : Ledger}

/-- The log of `c` says what `c` is, and nothing stands behind it. -/
structure Mirrors (hash : Bytes → UInt64) (c : PMap) (L : Ledger) : Prop
    extends c.Refines hash L where
  dict_eq : (replay hash L.log).dict = L.dict
  sum_eq : (replay hash L.log).sum = L.checksum.newChecksum
  ahead : (replay hash L.log).Ahead c.hm
  reads : Replay.Reads hash .start L.log
  zero : ∀ i, c.st.length ≤ i → c.st.file i = 0

theorem mirrors_new (hash : Bytes → UInt64) (path : String) (size : ℕ) :
    (new path size).Mirrors hash (Ledger.new size) :=
  ⟨refines_new hash path size, rfl, rfl, Or.inl le_rfl, trivial, fun _ _ => rfl⟩

namespace Mirrors

/-- A request that writes no record. -/
theorem keep (h : c.Mirrors hash L) (h' : c'.Refines hash L)
    (hm : Moves (fun n => HashMap.Grown n c.hm) c.st L c' L) : c'.Mirrors hash L := by
  rcases hm with ⟨-, hfile, hg⟩ | ⟨r, hlog, -⟩
  · refine ⟨h', h.dict_eq, h.sum_eq, h.ahead.grown hg, h.reads, fun i hi => ?_⟩
    rw [hfile]
    exact h.zero i (by rwa [h.isLog.length_eq, ← h'.isLog.length_eq])
  · exact absurd hlog (by simp)

/-- **A request that writes a record**: the reader of the longer log follows. -/
theorem snoc (h : c.Mirrors hash L) (h' : c'.Refines hash L')
    (hm : Moves (fun n => HashMap.Grown n c.hm) c.st L c' L') {r : Record}
    (hlog : L'.log = L.log ++ [r]) (hr : (replay hash L.log).Proper r)
    (hdict : ((replay hash L.log).step hash r).dict = L'.dict)
    (hsum : ((replay hash L.log).step hash r).sum = L'.checksum.newChecksum) :
    c'.Mirrors hash L' := by
  rcases hm with ⟨hsame, -⟩ | ⟨r', hlog', hfile, hg⟩
  · exact absurd (hlog.symm.trans hsame) (by simp)
  · obtain rfl : r' = r :=
      List.singleton_inj.mp (List.append_inj' (hlog'.symm.trans hlog) rfl).2
    have hcount : (replay hash L.log).dict.count ≤ c.hm.numStoredKeys := by
      rw [h.dict_eq, ← h.index.liveCount_eq, h.index.valid.stored_eq]
      exact HashMap.liveCount_le_used
    refine ⟨h', ?_, ?_, ?_, ?_, fun i hi => ?_⟩
    · rw [hlog, replay_snoc, hdict]
    · rw [hlog, replay_snoc, hsum]
    · rw [hlog, replay_snoc]
      exact h.ahead.step h.index.valid hcount (by rwa [h.dict_eq])
    · rw [hlog]
      exact Replay.reads_snoc.mpr ⟨h.reads, hr⟩
    · rw [h'.isLog.length_eq, hlog, logSize_snoc, ← h.isLog.length_eq] at hi
      rw [hfile]
      exact Store.zero_append h.zero r' i hi

/-- A pair written. -/
theorem write (h : c.Mirrors hash L) {k v : Bytes} (h' : c'.Refines hash (L.write hash k v))
    (hm : Moves (fun n => HashMap.Grown n c.hm) c.st L c' (L.write hash k v)) (hk : k ≠ [])
    (hv : 8 ≤ v.length) : c'.Mirrors hash (L.write hash k v) := by
  have hne : v ≠ [] := fun h0 => by
    rw [h0] at hv
    exact absurd hv (by decide)
  refine h.snoc h' hm rfl ⟨hk, Or.inl hv⟩ ?_ ?_ <;> rw [Replay.step]
  · rcases Option.eq_none_or_eq_some (L.dict k) with hd | ⟨old, hd⟩ <;>
      simp only [h.dict_eq, hd, hne, Ledger.write, if_false]
  · rcases Option.eq_none_or_eq_some (L.dict k) with hd | ⟨old, hd⟩ <;>
      simp only [h.dict_eq, hd, hne, Ledger.write, Ledger.retract, h.sum_eq, if_false,
        SyncChecksum.newChecksum_sum, SyncChecksum.newChecksum_sub]

/-- A pair removed, with its tombstone. -/
theorem bury (h : c.Mirrors hash L) {k old : Bytes} {t : Time} (hd : L.dict k = some old)
    (h' : c'.Refines hash ((L.erase hash k old t).bury k))
    (hm : Moves (fun n => HashMap.Grown n c.hm) c.st L c' ((L.erase hash k old t).bury k))
    (hk : k ≠ []) : c'.Mirrors hash ((L.erase hash k old t).bury k) := by
  refine h.snoc h' hm rfl ⟨hk, Or.inr ⟨rfl, ?_⟩⟩ ?_ ?_
  · rw [h.dict_eq]
    exact hd ▸ Option.some_ne_none _
  · simp only [Replay.step, h.dict_eq, hd, Ledger.bury, Ledger.erase, if_true]
  · simp only [Replay.step, h.dict_eq, hd, Ledger.bury, Ledger.erase, h.sum_eq, if_true,
      SyncChecksum.newChecksum_sub, UInt64.add_zero]

/-- **One request** on a key, with no `put` denied. -/
theorem step (h : c.Mirrors hash L) {ev : Op × Option Error} (hs : Step hash c ev c')
    (hkey : ev.1.key ≠ []) (hput : ev.2 ≠ some .storeLimit) :
    c'.Mirrors hash (L.apply hash ev) := by
  obtain ⟨-, h', -, hm⟩ := hs.refines h.toRefines
  have heff := hs.effect h.toRefines
  obtain ⟨op, e⟩ := ev
  dsimp only at heff hkey hput
  generalize L.apply hash (op, e) = L' at heff h' hm ⊢
  cases heff with
  | same => exact h.keep h' hm
  | set hv => exact h.write h' hm hkey hv
  | cas hv => exact h.write h' hm hkey hv
  | spoil => exact absurd rfl hput
  | bury hd => exact h.bury hd h' hm hkey
  | erase => exact absurd rfl hput

end Mirrors

/-- **Along every run** on keys, with no `put` denied, the log says what the `PMap` is. -/
theorem mirrors_run {path : String} {size : ℕ} {evs : List (Op × Option Error)}
    (hrun : Run (Step hash) (new path size) evs c)
    (hevs : ∀ ev ∈ evs, ev.1.key ≠ [] ∧ ev.2 ≠ some .storeLimit) :
    c.Mirrors hash ((Ledger.new size).run hash evs) :=
  hrun.simulates_on (fun hev h hs => h.step hs hev.1 hev.2) hevs (mirrors_new hash path size)

end PMap

end Treeless
