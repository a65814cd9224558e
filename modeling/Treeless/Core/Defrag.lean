import Treeless.PMap.Iterate
import Treeless.PMap.Replay

/-!
# Core/Defrag — rebuilding a chunk from what its iteration shows

The defragmenter sets every pair that `Iterate` shows into a new `PMap`; a failed `Set` is a panic.
All the records of a key that show have one timestamp, and a pair that comes again with the same
timestamp changes nothing: the new `PMap` has of each key the *first* record that shows (`firsts`).
That is the chunk's own dictionary exactly if this first record holds the key's current value, no
tombstone shows, and the new bucket array does not reach its limit (`Undisturbed`).
-/

namespace Treeless

/-- The dictionary of the first records of each key. -/
def firsts (ys : List Record) : Dict := fun k =>
  (ys.find? fun r => decide (r.key = k)).map Record.val

theorem firsts_snoc (ys : List Record) (r : Record) : firsts (ys ++ [r])
    = if firsts ys r.key = none then Function.update (firsts ys) r.key (some r.val)
      else firsts ys := by
  split
  · next hnone =>
    rw [firsts, Option.map_eq_none_iff] at hnone
    funext k
    rw [firsts, List.find?_append]
    by_cases hk : k = r.key
    · subst hk
      rw [Function.update_self, hnone, Option.none_or]
      simp
    · rw [Function.update_of_ne hk, List.find?_cons_of_neg (by simpa using fun h => hk h.symm)]
      simp [firsts]
  · next hsome =>
    funext k
    rw [firsts, List.find?_append, firsts]
    by_cases hk : k = r.key
    · subst hk
      rw [firsts, Option.map_eq_none_iff] at hsome
      obtain ⟨y, hy⟩ := Option.ne_none_iff_exists'.mp hsome
      rw [hy]
      rfl
    · rw [List.find?_cons_of_neg (by simpa using fun h => hk h.symm)]
      simp

/-- A value of `firsts` is one of the records'. -/
theorem mem_of_firsts {ys : List Record} {k v : Bytes} (h : firsts ys k = some v) :
    ∃ y ∈ ys, y.key = k ∧ y.val = v := by
  obtain ⟨y, hy, rfl⟩ := Option.map_eq_some_iff.mp h
  exact ⟨y, List.mem_of_find?_eq_some hy, by simpa using List.find?_some hy, rfl⟩

theorem HashMap.Indexes.finite_keys {hash : Bytes → UInt64} {hm : HashMap} {log : List Record}
    {m : Dict} (h : hm.Indexes hash log m) : {k | m k ≠ none}.Finite := by
  refine ((Finset.range hm.size).finite_toSet.image
    fun i => ((hm.target log i).map Record.key).getD []).subset fun k hk => ?_
  obtain ⟨v, hv⟩ := Option.ne_none_iff_exists'.mp hk
  obtain ⟨i, hi, -, hr⟩ := h.mem k v hv
  exact ⟨i, Finset.mem_coe.mpr (Finset.mem_range.mpr hi), by simp [hr]⟩

theorem Dict.count_update {m : Dict} (hfin : {k | m k ≠ none}.Finite) {k : Bytes} (hk : m k = none)
    (v : Bytes) : Dict.count (Function.update m k (some v)) = m.count + 1 := by
  have hins : {k' | Function.update m k (some v) k' ≠ none} = insert k {k | m k ≠ none} := by
    ext k'
    by_cases hkk : k' = k
    · simp [hkk]
    · simp [hkk]
  have hnot : k ∉ {k | m k ≠ none} := fun h : m k ≠ none => h hk
  rw [Dict.count, hins, Set.ncard_insert_of_notMem hnot hfin]
  rfl

namespace PMap

/-- Sets a pair of the old chunk into the new one. -/
def copyPair (new : PMap) (key value : Bytes) : Call (PMap × Bool) := do
  let (e, new) ← new.set (fnv1a64 key) key value
  if e = none then return (new, true) else .error .panic

/-- The `PMap` the defragmenter builds from an old one. -/
def defragment (old : PMap) (path : String) (size : ℕ) : Call PMap :=
  old.iterate copyPair (PMap.new path size)

/-- `new` is what copying the records `ys` has made of a new `PMap`. -/
structure Copied (size : ℕ) (ys : List Record) (new : PMap) (N : Ledger) : Prop
    extends new.Refines fnv1a64 N where
  cap_eq : N.size = size
  dict_eq : N.dict = firsts ys
  log_le : logSize N.log ≤ logSize ys
  stored_le : new.hm.numStoredKeys ≤ N.dict.count
  timed : ∀ y ∈ ys, 8 ≤ y.val.length

variable {size : ℕ} {ys : List Record} {new : PMap} {N : Ledger} {r : Record}

theorem copied_new (path : String) (size : ℕ) :
    Copied size [] (PMap.new path size) (Ledger.new size) :=
  ⟨refines_new fnv1a64 path size, rfl, rfl, le_rfl, Nat.zero_le _, fun _ hy => (nomatch hy)⟩

/-- **The bucket array is at its limit** when it has as many keys as the largest array takes. -/
theorem Copied.full_iff (h : Copied size ys new N) :
    new.hm.full = true ↔ capacity 26 ≤ (firsts ys).count := by
  have hshape := h.index.valid.toShaped
  have hlive : (firsts ys).count ≤ new.hm.numStoredKeys := by
    rw [← h.dict_eq, ← h.index.liveCount_eq, h.index.valid.stored_eq]
    exact HashMap.liveCount_le_used
  have hst := h.stored_le
  have hload := h.index.valid.load
  have hle := h.index.size_le
  rw [h.dict_eq] at hst
  rw [hshape.full_eq_capacity] at hload
  rw [h.index.limit_eq, hshape.size_eq] at hle
  have hlog : new.hm.sizelog2 ≤ 26 := (Nat.pow_le_pow_iff_right (by decide : 1 < 2)).mp hle
  rw [HashMap.full, decide_eq_true_iff, hshape.full_eq_capacity, hshape.size_eq, h.index.limit_eq,
    ← pow_succ]
  constructor
  · rintro ⟨hfull, hlim⟩
    have h26 : 26 < new.hm.sizelog2 + 1 := (Nat.pow_lt_pow_iff_right (by decide : 1 < 2)).mp hlim
    have heq : new.hm.sizelog2 = 26 := by omega
    rw [heq] at hfull
    omega
  · intro hcount
    have heq : new.hm.sizelog2 = 26 := by
      refine hlog.eq_of_not_lt fun hlt => ?_
      have := strictMono_nat_of_lt_succ capacity_lt_succ hlt
      omega
    rw [heq]
    exact ⟨by omega, by decide⟩

/-- The record `r`, set into the new chunk. -/
def copyRecord (new : PMap) (r : Record) : Call PMap := Prod.fst <$> copyPair new r.key r.val

/-- A `Set` of the record succeeds after those of `ys`: it has a value, and the bucket array is
below its limit. -/
def Takes (ys : List Record) (r : Record) : Prop :=
  8 ≤ r.val.length ∧ (firsts ys).count < capacity 26

/-- **A `Set` that fails is a panic.** -/
theorem Copied.copyRecord_panics (h : Copied size ys new N) (hnot : ¬ Takes ys r) :
    copyRecord new r = .error .panic := by
  rw [copyRecord, copyPair, set]
  by_cases hv : r.val.length < 8
  · rw [if_pos hv]
    rfl
  · have hge : capacity 26 ≤ (firsts ys).count := not_lt.mp fun hlt => hnot ⟨not_lt.mp hv, hlt⟩
    rw [if_neg hv]
    rcases HashMap.checkSpace_eq h.index.valid.toShaped with ⟨-, hcs⟩ | ⟨hfull, -⟩
    · rw [hcs]
      rfl
    · cases (h.full_iff.mpr hge).symm.trans hfull

/-- The `Set` of a record that finds room returns no error. -/
theorem Copied.answer_eq (h : Copied size ys new N) (htakes : Takes ys r)
    (hroom : logSize ys + r.size < size) :
    N.answer new.hm.full (.set r.key r.val) = none := by
  have hfull : new.hm.full = false :=
    Bool.eq_false_iff.mpr (mt h.full_iff.mp (not_le.mpr htakes.2))
  have hput : N.putAnswer r.key r.val = none := by
    refine if_pos ?_
    rw [Ledger.Room, h.cap_eq]
    exact lt_of_le_of_lt (Nat.add_le_add_right h.log_le _) hroom
  rw [N.answer_set hfull (not_lt.mpr htakes.1), hput]
  split
  · rfl
  · exact ite_self none

/-- The `Set` of a record writes it if its key is new, and changes nothing if the key was copied
before, at the same time. -/
theorem Copied.apply_eq (h : Copied size ys new N)
    (htime : ∀ y ∈ ys, y.key = r.key → unixTime y.val = unixTime r.val) :
    N.apply fnv1a64 (.set r.key r.val, none)
      = if N.dict r.key = none then N.write fnv1a64 r.key r.val else N := by
  rcases Option.eq_none_or_eq_some (N.dict r.key) with hk | ⟨old, hk⟩
  · simp only [Ledger.apply, hk, if_true]
  · obtain ⟨y, hy, hyk, rfl⟩ := mem_of_firsts (h.dict_eq ▸ hk)
    simp only [Ledger.apply, hk, if_pos (htime y hy hyk).ge, reduceCtorEq, if_false]

/-- The keys stored are at most those of the dictionary, and the new ones. -/
theorem Copied.stored_of_grown (h : Copied size ys new N) {n : ℕ} {hm : HashMap}
    (hg : HashMap.Grown n new.hm hm) : hm.numStoredKeys ≤ N.dict.count + n := by
  have hst := h.stored_le
  rcases hg with ⟨-, hg⟩ | ⟨-, hg⟩
  · rw [h.index.liveCount_eq] at hg
    omega
  · omega

/-- **Copying one record more.** -/
theorem Copied.copy (h : Copied size ys new N) (htakes : Takes ys r)
    (hroom : logSize ys + r.size < size) (haddr : logSize ys + r.size ≤ 2 ^ 32)
    (htime : ∀ y ∈ ys, y.key = r.key → unixTime y.val = unixTime r.val) :
    ∃ new' N', copyRecord new r = .ok new' ∧ Copied size (ys ++ [r]) new' N' := by
  have hlog := h.log_le
  have hlen := h.isLog.length_eq
  have htimed : ∀ y ∈ ys ++ [r], 8 ≤ y.val.length := fun y hy => by
    rcases List.mem_append.mp hy with hy | hy
    · exact h.timed y hy
    · rw [List.mem_singleton.mp hy]
      exact htakes.1
  rcases set_spec h.toRefines r.key r.val with ⟨⟨hfar, -⟩, -⟩ | ⟨new', hset, hr, -, hm⟩
  · have hfar : 2 ^ 32 < new.st.length + r.size := hfar
    omega
  rw [h.answer_eq htakes hroom] at hset hr hm
  rw [h.apply_eq htime] at hr hm
  have hcopy : copyRecord new r = .ok new' := by
    rw [copyRecord, copyPair, hset]
    rfl
  by_cases hk : N.dict r.key = none
  · rw [if_pos hk] at hr hm
    refine ⟨new', N.write fnv1a64 r.key r.val, hcopy, hr, h.cap_eq, ?_, ?_, ?_, htimed⟩
    · rw [firsts_snoc, ← h.dict_eq, if_pos hk]
      rfl
    · simp only [Ledger.write, logSize_append, logSize_cons, logSize_nil]
      exact Nat.add_le_add_right hlog _
    · have hcount : (N.write fnv1a64 r.key r.val).dict.count = N.dict.count + 1 :=
        Dict.count_update h.index.finite_keys hk r.val
      rw [hcount]
      rcases hm with ⟨-, -, hg⟩ | ⟨r', -, -, hg⟩
      · exact (h.stored_of_grown hg).trans (Nat.le_succ _)
      · refine (h.stored_of_grown hg).trans (Nat.add_le_add_left ?_ _)
        split <;> decide
  · rw [if_neg hk] at hr hm
    refine ⟨new', N, hcopy, hr, h.cap_eq, ?_, ?_, ?_, htimed⟩
    · rw [firsts_snoc, ← h.dict_eq, if_neg hk]
    · rw [logSize_append]
      omega
    · rcases hm with ⟨-, -, hg⟩ | ⟨r', hlog', -⟩
      · exact h.stored_of_grown hg
      · exact absurd hlog' (by simp)

/-- Each record finds the bucket array below its limit, when those before it are copied. -/
def Below (ys : List Record) : List Record → Prop
  | [] => True
  | r :: rest => (firsts ys).count < capacity 26 ∧ Below (ys ++ [r]) rest

/-- The `Set`s of all the records succeed. -/
def Taken (ys rest : List Record) : Prop := (∀ r ∈ rest, 8 ≤ r.val.length) ∧ Below ys rest

theorem taken_cons {rest : List Record} :
    Taken ys (r :: rest) ↔ Takes ys r ∧ Taken (ys ++ [r]) rest := by
  rw [Taken, Taken, Takes, Below, List.forall_mem_cons]
  exact and_and_and_comm

/-- **Copying a list of records**, with one time for each key, ends with the copy or in a panic. -/
theorem Copied.foldlM {rest : List Record} (h : Copied size ys new N)
    (hroom : rest ≠ [] → logSize (ys ++ rest) < size) (haddr : logSize (ys ++ rest) ≤ 2 ^ 32)
    (htime : ∀ y ∈ ys ++ rest, ∀ r ∈ ys ++ rest, 8 ≤ y.val.length → 8 ≤ r.val.length →
      y.key = r.key → unixTime y.val = unixTime r.val) :
    (Taken ys rest ∧ ∃ new' N', rest.foldlM copyRecord new = .ok new'
      ∧ Copied size (ys ++ rest) new' N')
    ∨ (¬ Taken ys rest ∧ rest.foldlM copyRecord new = .error .panic) := by
  induction rest generalizing ys new N with
  | nil => exact Or.inl ⟨⟨fun r hr => (nomatch hr), trivial⟩, new, N, rfl, by rwa [List.append_nil]⟩
  | cons r rest ih =>
    have hassoc : ys ++ r :: rest = (ys ++ [r]) ++ rest := by
      rw [List.append_assoc, List.singleton_append]
    have hr : r ∈ ys ++ r :: rest := List.mem_append_right _ List.mem_cons_self
    have hsize : logSize ys + r.size ≤ logSize (ys ++ r :: rest) := by
      rw [logSize_append, logSize_cons]
      omega
    have hroom := hroom (List.cons_ne_nil r rest)
    rw [taken_cons, List.foldlM_cons]
    by_cases htakes : Takes ys r
    · obtain ⟨new₁, N₁, hcopy, h₁⟩ := h.copy htakes (by omega) (by omega) fun y hy =>
        htime y (List.mem_append_left _ hy) r hr (h.timed y hy) htakes.1
      rw [hassoc] at hroom haddr htime ⊢
      rw [hcopy, Call.ok_bind, and_iff_right htakes]
      exact ih h₁ (fun _ => hroom) haddr htime
    · rw [h.copyRecord_panics htakes]
      exact Or.inr ⟨fun ht => htakes ht.1, rfl⟩

end PMap

/-! ## The records of a run -/

/-- Every record holds a value with a timestamp or is a tombstone, and the store is not full. -/
structure Ledger.Sound (L : Ledger) : Prop where
  timed : ∀ r ∈ L.log, 8 ≤ r.val.length ∨ r.val = []
  spare : L.log = [] ∨ logSize L.log < L.size

theorem Ledger.Sound.snoc {L L' : Ledger} (h : L.Sound) {k v : Bytes}
    (hlog : L'.log = L.log ++ [⟨k, v⟩]) (hsize : L'.size = L.size) (hroom : L.Room k v)
    (hv : 8 ≤ v.length ∨ v = []) : L'.Sound := by
  constructor
  · intro r hr
    rw [hlog] at hr
    rcases List.mem_append.mp hr with hr | hr
    · exact h.timed r hr
    · rw [List.mem_singleton.mp hr]
      exact hv
  · rw [hlog, hsize, logSize_snoc]
    exact Or.inr hroom

theorem Ledger.Effect.sound {hash : Bytes → UInt64} {L L' : Ledger} {op : Op} {e : Option Error}
    (heff : L.Effect hash op e L') (h : L.Sound) : L'.Sound := by
  cases heff with
  | same => exact h
  | set hv hroom => exact h.snoc rfl rfl hroom (Or.inl hv)
  | cas hv hroom => exact h.snoc rfl rfl hroom (Or.inl hv)
  | spoil => exact ⟨h.timed, h.spare⟩
  | bury _ _ hroom => exact h.snoc rfl rfl hroom (Or.inr rfl)
  | erase => exact ⟨h.timed, h.spare⟩

theorem PMap.sound_run {hash : Bytes → UInt64} {path : String} {size : ℕ}
    {evs : List (Op × Option Error)} {c : PMap} (hrun : Run (Step hash) (new path size) evs c) :
    ((Ledger.new size).run hash evs).Sound := by
  have hR : (new path size).Refines hash (Ledger.new size) ∧ (Ledger.new size).Sound :=
    ⟨refines_new hash path size, fun r hr => (nomatch hr), Or.inl rfl⟩
  exact (hrun.simulates (R := fun c L => c.Refines hash L ∧ L.Sound)
    (fun h hs => ⟨(hs.refines h.1).2.1, (hs.effect h.1).sound h.2⟩) hR).2

/-! ## The rebuilt chunk -/

theorem logSize_le_of_sublist {log log' : List Record} (h : log.Sublist log') :
    logSize log ≤ logSize log' := by
  induction h with
  | slnil => exact le_rfl
  | cons r _ ih =>
    rw [logSize_cons]
    omega
  | cons_cons r _ ih =>
    rw [logSize_cons, logSize_cons]
    omega

namespace PMap

variable {path : String} {size : ℕ} {evs : List (Op × Option Error)} {c : PMap} {log : List Record}
  {m : Dict}

/-- The records the iteration shows. -/
def shownRecords (c : PMap) (log : List Record) : List Record :=
  ((located 0 log).filter c.shows).map Prod.snd

/-- The iteration meets no fault and shows no tombstone, the first record it shows of a key holds
the key's current value, and no record finds more keys before it than a bucket array takes. -/
structure Undisturbed (c : PMap) (log : List Record) : Prop where
  answers : ∀ p ∈ located 0 log, c.Answers p
  tombstones : ∀ p ∈ located 0 log, c.shows p = true → p.2.val ≠ []
  first : ∀ k, ((located 0 log).find? fun p => c.shows p && decide (p.2.key = k)).map
    (fun p => p.2.val) = c.value k
  below : Below [] (c.shownRecords log)

theorem firsts_shownRecords (c : PMap) (log : List Record) (k : Bytes) :
    firsts (c.shownRecords log) k
      = ((located 0 log).find? fun p => c.shows p && decide (p.2.key = k)).map
        (fun p => p.2.val) := by
  rw [firsts, shownRecords, List.find?_map, Option.map_map, List.find?_filter]
  simp only [Function.comp_def, Bool.decide_and, Bool.decide_eq_true, decide_eq_true_eq]

theorem mem_shownRecords {y : Record} (hy : y ∈ c.shownRecords log) :
    ∃ p ∈ located 0 log, c.shows p = true ∧ p.2 = y := by
  obtain ⟨p, hp, rfl⟩ := List.mem_map.mp hy
  obtain ⟨hp, hshows⟩ := List.mem_filter.mp hp
  exact ⟨p, hp, hshows, rfl⟩

/-- A record with a value that shows has the timestamp of what `Get` finds for its key. -/
theorem Denotes.unixTime_shown {hash : Bytes → UInt64} (h : c.Denotes hash log m) {y : Record}
    (hy : y ∈ c.shownRecords log) (hv : 8 ≤ y.val.length) :
    ∃ v, c.get (fnv1a64 y.key).toUInt32 y.key = .ok (some v) ∧ unixTime y.val = unixTime v := by
  obtain ⟨p, hp, hshows, rfl⟩ := mem_shownRecords hy
  obtain ⟨off, hoff, hr⟩ := recordAt_of_located hp
  rw [Nat.zero_add] at hoff
  have hat := h.isLog.recordAt (hoff ▸ hr)
  have hx := of_decide_eq_true hshows
  rw [isPresent, hat.key_eq, Call.ok_bind] at hx
  obtain ⟨found, hget, hx⟩ := Call.bind_eq_ok.mp hx
  cases found with
  | none => cases hx
  | some v =>
    refine ⟨v, hget, ?_⟩
    dsimp only at hx
    rw [hat.header.valSlice_eq, Call.ok_bind] at hx
    split at hx
    · cases hx
    · rw [hat.first8_eq hv] at hx
      have htake : v.take 8 = p.2.val.take 8 := of_decide_eq_true (Except.ok.inj hx)
      rw [← unixTime_take, ← htake, unixTime_take]

/-- A chunk of a run, and what the copy of its records needs. -/
theorem Refines.foldlM_shownRecords {L : Ledger} (h : c.Refines fnv1a64 L) (hsound : L.Sound)
    (hsize : L.size = size) (path' : String) :
    (Taken [] (c.shownRecords L.log) ∧ ∃ c' N,
      (c.shownRecords L.log).foldlM copyRecord (new path' size) = .ok c'
        ∧ Copied size (c.shownRecords L.log) c' N)
    ∨ (¬ Taken [] (c.shownRecords L.log)
      ∧ (c.shownRecords L.log).foldlM copyRecord (new path' size) = .error .panic) := by
  have hsub : (c.shownRecords L.log).Sublist L.log := by
    have := (List.filter_sublist (p := c.shows) (l := located 0 L.log)).map Prod.snd
    rwa [map_snd_located] at this
  have hle := logSize_le_of_sublist hsub
  have haddr := h.isLog.addressable
  rw [h.isLog.length_eq] at haddr
  have hroom : c.shownRecords L.log ≠ [] → logSize ([] ++ c.shownRecords L.log) < size :=
    fun hne => by
      rcases hsound.spare with hnil | hlt
      · rw [hnil] at hne
        exact absurd rfl hne
      · rw [List.nil_append]
        omega
  refine (copied_new path' size).foldlM hroom (hle.trans haddr) fun y hy r hr hvy hvr heq => ?_
  obtain ⟨v, hget, ht⟩ := h.unixTime_shown hy hvy
  obtain ⟨v', hget', ht'⟩ := h.unixTime_shown hr hvr
  rw [heq, hget'] at hget
  rw [ht, ht', Option.some.inj (Except.ok.inj hget)]

theorem copyPair_go (s : PMap) (k v : Bytes) (s' : PMap) (b : Bool)
    (h : copyPair s k v = .ok (s', b)) : b = true := by
  obtain ⟨⟨e, s₁⟩, -, h⟩ := Call.bind_eq_ok.mp h
  dsimp only at h
  split at h
  · cases h
    rfl
  · cases h

/-- **The defragmenter copies the records that show.** -/
theorem Refines.defragment_eq {L : Ledger} (h : c.Refines fnv1a64 L)
    (hans : ∀ p ∈ located 0 L.log, c.Answers p) (path' : String) (size : ℕ) :
    c.defragment path' size = (c.shownRecords L.log).foldlM copyRecord (new path' size) := by
  rw [defragment, h.toDenotes.iterate_eq copyPair_go hans, shownRecords, List.foldlM_map]
  rfl

/-- **When defragmentation is invisible.**  For a chunk reached by a run, the rebuilt `PMap` exists
and has the same dictionary, exactly if the chunk is undisturbed. -/
theorem defragment_invisible_iff (hrun : Run (Step fnv1a64) (new path size) evs c)
    (path' : String) :
    (∃ c', c.defragment path' size = .ok c' ∧ c'.value = c.value)
      ↔ c.Undisturbed ((Ledger.new size).run fnv1a64 evs).log := by
  have h := refines_run hrun
  have hsound := sound_run hrun
  have hsize := Ledger.size_run fnv1a64 (Ledger.new size) evs
  generalize (Ledger.new size).run fnv1a64 evs = L at h hsound hsize ⊢
  have hcopy := h.foldlM_shownRecords hsound hsize path'
  constructor
  · rintro ⟨c', hx, hval⟩
    have hans := h.toDenotes.answers_of_iterate copyPair_go hx
    rw [h.defragment_eq hans] at hx
    rcases hcopy with ⟨htaken, c₁, N, hfold, hc⟩ | ⟨-, hfold⟩
    · obtain rfl := Except.ok.inj (hx.symm.trans hfold)
      refine ⟨hans, fun p hp hshows hnil => ?_, fun k => ?_, htaken.2⟩
      · have := htaken.1 p.2 (List.mem_map_of_mem (List.mem_filter.mpr ⟨hp, hshows⟩))
        rw [hnil] at this
        exact absurd this (by decide)
      · rw [← firsts_shownRecords, ← hc.dict_eq, ← hc.value_eq, hval]
    · cases hx.symm.trans hfold
  · intro hu
    have htaken : Taken [] (c.shownRecords L.log) := ⟨fun y hy => by
      obtain ⟨p, hp, hshows, rfl⟩ := mem_shownRecords hy
      obtain ⟨off, -, hr⟩ := recordAt_of_located hp
      exact (hsound.timed p.2 (mem_of_recordAt hr)).resolve_right (hu.tombstones p hp hshows),
      hu.below⟩
    rcases hcopy with ⟨-, c', N, hfold, hc⟩ | ⟨hnot, -⟩
    · refine ⟨c', (h.defragment_eq hu.answers path' size).trans hfold, ?_⟩
      rw [hc.value_eq, hc.dict_eq]
      exact funext fun k => (firsts_shownRecords c L.log k).trans (hu.first k)
    · exact absurd htaken hnot

/-- A chunk of two keys, one of them overwritten. -/
theorem defragment_invisible_iff_overwritten : ∃ c,
    Run (Step fnv1a64) (new "" 200) [(.set [1] (stamped 5 [7]), none),
      (.set [2] (stamped 5 [9]), none), (.set [1] (stamped 6 [8]), none)] c
    ∧ ((∃ c', c.defragment "" 200 = .ok c' ∧ c'.value = c.value)
      ↔ c.Undisturbed [⟨[1], stamped 5 [7]⟩, ⟨[2], stamped 5 [9]⟩, ⟨[1], stamped 6 [8]⟩]) := by
  obtain ⟨c, hrun, -⟩ := exists_run fnv1a64 (new "" 200) [(.set [1] (stamped 5 [7]), none),
    (.set [2] (stamped 5 [9]), none), (.set [1] (stamped 6 [8]), none)]
    (fun c => .ok c.hm.numStoredKeys) 2 (by decide) (by decide +kernel)
  have hrun := run_step (by decide) hrun (refines_new fnv1a64 "" 200) rfl
  exact ⟨c, hrun, defragment_invisible_iff hrun ""⟩

/-- A key deleted and set again with its first timestamp: the rebuilt chunk has the first value.  A
key set again with the timestamp that the bytes behind its tombstone spell: the rebuild panics. -/
theorem defragment_visible :
    (∃ evs c c', Run (Step fnv1a64) (new "" 200) evs c ∧ c.defragment "" 200 = .ok c'
      ∧ c.get (fnv1a64 [1]).toUInt32 [1] = .ok (some (stamped 5 [8]))
      ∧ c'.get (fnv1a64 [1]).toUInt32 [1] = .ok (some (stamped 5 [7])))
    ∧ ∃ evs c, Run (Step fnv1a64) (new "" 200) evs c ∧ c.defragment "" 200 = .error .panic := by
  constructor
  · obtain ⟨c, hrun, hobs⟩ := exists_run fnv1a64 (new "" 200) [(.set [1] (stamped 5 [7]), none),
      (.del [1] (stamped 6 []), none), (.set [1] (stamped 5 [8]), none)]
      (fun c => (c.get (fnv1a64 [1]).toUInt32 [1]).bind fun v =>
        (c.defragment "" 200).bind fun c' =>
          (c'.get (fnv1a64 [1]).toUInt32 [1]).map fun v' => (v, v'))
      (some (stamped 5 [8]), some (stamped 5 [7])) (by decide) (by decide +kernel)
    have hrun := run_step (by decide) hrun (refines_new fnv1a64 "" 200) rfl
    obtain ⟨v, hv, hobs⟩ := Call.bind_eq_ok.mp hobs
    obtain ⟨c', hc', hobs⟩ := Call.bind_eq_ok.mp hobs
    obtain ⟨v', hv', hobs⟩ := Call.map_eq_ok.mp hobs
    obtain ⟨rfl, rfl⟩ := Prod.mk.inj hobs
    exact ⟨_, c, c', hrun, hc', hv, hv'⟩
  · obtain ⟨c, hrun, hobs⟩ := exists_run fnv1a64 (new "" 200) [(.set [1] (stamped 5 [7]), none),
      (.del [1] (stamped 6 []), none), (.set [1] (stamped 4294967297 []), none)]
      (fun c => match c.defragment "" 200 with
        | .error e => .ok e
        | .ok _ => .error .bounds) .panic (by decide) (by decide +kernel)
    refine ⟨_, c, run_step (by decide) hrun (refines_new fnv1a64 "" 200) rfl, ?_⟩
    cases hd : c.defragment "" 200 with
    | error e => rw [hd] at hobs; exact congrArg Except.error (Except.ok.inj hobs)
    | ok c' => rw [hd] at hobs; cases hobs

end PMap

end Treeless
