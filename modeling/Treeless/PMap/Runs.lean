import Treeless.PMap.Refine

/-!
# PMap/Runs — what holds along every run of requests

From a new `PMap`, every run of `Set`, `CAS` and `Del` keeps the index in order and makes of it the
reference map (`Dict.step`, request by request).  `Get` reads that map for every key but those whose
hash word is one of the two reserved codes: it does not move them out of the way, as the writers do.
-/

namespace Treeless

namespace Ledger

variable (hash : Bytes → UInt64)

/-- The ledger after a run of requests. -/
def run (L : Ledger) (evs : List (Op × Option Error)) : Ledger := evs.foldl (apply hash) L

theorem dict_run (L : Ledger) (evs : List (Op × Option Error)) :
    (L.run hash evs).dict = evs.foldl Dict.step L.dict := by
  induction evs generalizing L with
  | nil => rfl
  | cons ev evs ih => exact (ih _).trans (by rw [dict_apply, List.foldl_cons])

theorem size_run (L : Ledger) (evs : List (Op × Option Error)) :
    (L.run hash evs).size = L.size := by
  induction evs generalizing L with
  | nil => rfl
  | cons ev evs ih => exact (ih _).trans (size_apply hash L ev)

/-- The ledger has nothing of the key. -/
def Lacks (key : Bytes) (L : Ledger) : Prop :=
  L.dict key = none ∧ ∀ r ∈ L.log, r.key ≠ key

/-- A request that writes no pair of the key leaves nothing of it. -/
theorem Effect.lacks {hash : Bytes → UInt64} {L L' : Ledger} {op : Op} {e : Option Error}
    (heff : L.Effect hash op e L') {key : Bytes} (h : L.Lacks key)
    (hwrite : ∀ k v, 8 ≤ v.length → L.Room k v → L' = L.write hash k v → k ≠ key) :
    L'.Lacks key := by
  obtain ⟨hdict, hlog⟩ := h
  have hsnoc : ∀ {k v : Bytes}, k ≠ key → ∀ r ∈ L.log ++ [⟨k, v⟩], r.key ≠ key := fun hk r hr => by
    rcases List.mem_append.mp hr with hr | hr
    · exact hlog r hr
    · rw [List.mem_singleton.mp hr]
      exact hk
  have hwritten : ∀ {k v : Bytes}, k ≠ key → (L.write hash k v).Lacks key := fun hk =>
    ⟨(Function.update_of_ne hk.symm _ _).trans hdict, hsnoc hk⟩
  have hne : ∀ {k old : Bytes}, L.dict k = some old → k ≠ key := fun hk h0 => by
    rw [← h0, hk] at hdict
    cases hdict
  cases heff with
  | same => exact ⟨hdict, hlog⟩
  | set hv hroom => exact hwritten (hwrite _ _ hv hroom rfl)
  | cas hv hroom => exact hwritten (hwrite _ _ hv hroom rfl)
  | spoil => exact ⟨hdict, hlog⟩
  | bury hk => exact ⟨(Function.update_of_ne (hne hk).symm _ _).trans hdict, hsnoc (hne hk)⟩
  | erase hk => exact ⟨(Function.update_of_ne (hne hk).symm _ _).trans hdict, hlog⟩

end Ledger

namespace PMap

variable {hash : Bytes → UInt64} {path : String} {size : ℕ} {c c' : PMap} {L : Ledger}
  {evs : List (Op × Option Error)}

/-- A request that is answered. -/
def Answered (hash : Bytes → UInt64) (c : PMap) (ev : Op × Option Error) (c' : PMap) : Prop :=
  ev.1.Timed ∧ c.apply hash ev.1 = .ok (ev.2, c')

/-- Serves a list of requests; returns each with its answer. -/
def exec (hash : Bytes → UInt64) : PMap → List Op → Call (List (Op × Option Error) × PMap)
  | c, [] => .ok ([], c)
  | c, op :: ops => do
    let (e, c) ← c.apply hash op
    let (evs, c) ← exec hash c ops
    return ((op, e) :: evs, c)

/-- What is served is a run. -/
theorem run_of_exec : ∀ {ops : List Op} {c : PMap} {evs : List (Op × Option Error)},
    (∀ op ∈ ops, op.Timed) → c.exec hash ops = .ok (evs, c') → Run (Answered hash) c evs c'
  | [], c, evs, _, h => by
      cases h
      exact .refl _
  | op :: ops, c, evs, hops, h => by
      obtain ⟨⟨e, c₁⟩, hx, h⟩ := Call.bind_eq_ok.mp h
      obtain ⟨⟨evs', c₂⟩, hrest, h⟩ := Call.bind_eq_ok.mp h
      cases h
      exact .cons ⟨hops op List.mem_cons_self, hx⟩
        (run_of_exec (fun o ho => hops o (List.mem_cons_of_mem _ ho)) hrest)

/-- A run with its answers, and what is observed at its end, from serving its requests. -/
theorem exists_run {β : Type} (hash : Bytes → UInt64) (c : PMap) (evs : List (Op × Option Error))
    (f : PMap → Call β) (b : β) (hops : ∀ ev ∈ evs, ev.1.Timed)
    (h : (c.exec hash (evs.map Prod.fst)).bind (fun p => (f p.2).map fun b => (p.1, b))
      = .ok (evs, b)) :
    ∃ c', Run (Answered hash) c evs c' ∧ f c' = .ok b := by
  obtain ⟨⟨evs', c'⟩, hex, h⟩ := Call.bind_eq_ok.mp h
  cases hf : f c' with
  | error e => rw [hf] at h; cases h
  | ok b' =>
    rw [hf] at h
    cases h
    refine ⟨c', run_of_exec (fun op hop => ?_) hex, hf⟩
    obtain ⟨ev, hev, rfl⟩ := List.mem_map.mp hop
    exact hops ev hev

/-- A run in the bytes a 32-bit word addresses follows the ledger. -/
theorem refines_run (hrun : Run (Step hash) (new path size) evs c) :
    c.Refines hash ((Ledger.new size).run hash evs) :=
  refines_of_run hrun (refines_new hash path size)

/-- In a store that a 32-bit word addresses, every request stays in its bytes. -/
theorem Answered.step (hsize : L.size ≤ 2 ^ 32) (h : c.Refines hash L) {ev : Op × Option Error}
    (hs : Answered hash c ev c') : Step hash c ev c' := by
  obtain ⟨e', c₁, hs'⟩ := exists_step h (by rw [h.size_eq]; exact hsize) hs.1
  obtain ⟨-, rfl⟩ := Prod.mk.inj (Except.ok.inj (hs.2.symm.trans hs'.2.1))
  exact ⟨hs.1, hs.2, hs'.2.2⟩

/-- So does every run. -/
theorem run_step (hsize : size ≤ 2 ^ 32) (hrun : Run (Answered hash) c evs c')
    (h : c.Refines hash L) (hL : L.size = size) : Run (Step hash) c evs c' := by
  induction hrun generalizing L with
  | refl => exact .refl _
  | cons hs _ ih =>
    have hstep := hs.step (hL ▸ hsize) h
    exact .cons hstep (ih (hstep.refines h).2.1 ((Ledger.size_apply hash L _).trans hL))

/-- A request that returns. -/
def Returned (hash : Bytes → UInt64) (c : PMap) (ev : Op × Option Error) (c' : PMap) : Prop :=
  c.apply hash ev.1 = .ok (ev.2, c')

/-- A request without a timestamp that returns has found nothing to delete. -/
theorem Returned.same (h : c.Refines hash L) {ev : Op × Option Error} (hs : Returned hash c ev c')
    (hop : ¬ ev.1.Timed) : c' = c := by
  obtain ⟨op, e⟩ := ev
  cases op with
  | set => exact absurd trivial hop
  | cas => exact absurd trivial hop
  | del k v =>
    cases hk : L.dict k with
    | none => exact ((Prod.mk.inj (Except.ok.inj ((h.del_absent hk v).symm.trans hs))).2).symm
    | some old => cases (h.del_short hk (not_le.mp hop)).symm.trans hs

/-- **The requests of a run that bring a timestamp are a run to the same end.** -/
theorem run_answered (hsize : size ≤ 2 ^ 32) (hrun : Run (Returned hash) c evs c')
    (h : c.Refines hash L) (hL : L.size = size) :
    Run (Answered hash) c (evs.filter fun ev => ev.1.Timed) c' := by
  induction hrun generalizing L with
  | refl => exact .refl _
  | @cons _ _ _ ev _ hs _ ih =>
    by_cases hop : ev.1.Timed
    · have ha : Answered hash _ ev _ := ⟨hop, hs⟩
      rw [List.filter_cons, if_pos (decide_eq_true hop)]
      exact .cons ha (ih ((ha.step (hL ▸ hsize) h).refines h).2.1
        ((Ledger.size_apply hash L ev).trans hL))
    · rw [List.filter_cons, if_neg fun hdec => hop (of_decide_eq_true hdec)]
      obtain rfl := Returned.same h hs hop
      exact ih h hL

/-! ## The index -/

/-- The index is in order: a live bucket points at a complete record, under the hash word of its
key and linked to the bucket the word names; a key has one live bucket at most. -/
structure Indexed (hash : Bytes → UInt64) (c : PMap) : Prop where
  live : ∀ i < c.hm.size, 2 ≤ c.hm.getHash i → ∃ r : Record,
    c.st.RecordAt (c.hm.getStoreIndex i).toNat r
      ∧ (c.hm.getStoreIndex i).toNat + r.size ≤ c.st.length
      ∧ c.hm.getHash i = hashReMap (hash r.key).toUInt32
      ∧ Linked c.hm.size c.hm.Free
          ((hashReMap (hash r.key).toUInt32).toNat &&& c.hm.sizeMask) i
  unique : ∀ i < c.hm.size, ∀ j < c.hm.size, 2 ≤ c.hm.getHash i → 2 ≤ c.hm.getHash j →
    c.st.key (c.hm.getStoreIndex i).toNat = c.st.key (c.hm.getStoreIndex j).toNat → i = j

theorem Denotes.indexed {log : List Record} {m : Dict} (h : c.Denotes hash log m) :
    c.Indexed hash := by
  have htarget : ∀ i < c.hm.size, 2 ≤ c.hm.getHash i → ∃ r, c.hm.target log i = some r :=
    fun i hi hi2 => h.index.tagged i hi (HashMap.not_free_of_two_le hi2)
  constructor
  · intro i hi hi2
    obtain ⟨r, hr⟩ := htarget i hi hi2
    have hw := (h.index.live i hi hi2 r hr).1
    refine ⟨r, h.complete hr, h.isLog.length_eq ▸ add_size_le_of_recordAt hr, hw, ?_⟩
    rw [h.index.valid.and_mask, ← hashWord, ← hw]
    exact h.index.valid.probed i hi hi2
  · intro i hi j hj hi2 hj2 heq
    obtain ⟨r, hr⟩ := htarget i hi hi2
    obtain ⟨r', hr'⟩ := htarget j hj hj2
    rw [(h.complete hr).key_eq, (h.complete hr').key_eq] at heq
    exact h.index.unique i hi j hj hi2 hj2 r r' hr hr' (Except.ok.inj heq)

/-- **Index refinement.**  Along every run the index is in order, the map it shows is the reference
map of the requests and their answers, and every further request is answered. -/
theorem run_refines_reference (hsize : size ≤ 2 ^ 32)
    (hrun : Run (Answered hash) (new path size) evs c) :
    c.Indexed hash ∧ c.value = evs.foldl Dict.step (fun _ => none)
      ∧ ∀ op : Op, op.Timed → ∃ e c', Answered hash c (op, e) c' := by
  have h := refines_run (run_step hsize hrun (refines_new hash path size) rfl)
  refine ⟨h.indexed, h.value_eq.trans (Ledger.dict_run hash _ evs), fun op hop => ?_⟩
  have hst : c.st.size ≤ 2 ^ 32 := by rw [h.size_eq, Ledger.size_run]; exact hsize
  obtain ⟨e, c', hs⟩ := exists_step h hst hop
  exact ⟨e, c', hs.1, hs.2.1⟩

/-- A value with the timestamp `t`. -/
def stamped (t : ℕ) (data : Bytes) : Bytes := leBytes 8 t ++ data

/-- Two keys of one hash: the second goes to the next bucket, and is found past the deleted one. -/
theorem run_refines_reference_collision :
    ∃ c, Run (Answered fun _ => 0) (new "" 75)
      [(.set [1] (stamped 5 [7]), none), (.set [2] (stamped 6 [8]), none),
        (.del [1] (stamped 5 []), none), (.set [1] (stamped 9 [9]), some .storeLimit),
        (.cas [2] (stamped 1 (leBytes 8 0 ++ stamped 8 [1])), some .casTimestamp)] c
      ∧ c.Indexed (fun _ => 0) ∧ c.value [1] = none ∧ c.value [2] = some (stamped 6 [8]) := by
  obtain ⟨c, hrun, -⟩ := exists_run (fun _ => 0) (new "" 75)
    [(.set [1] (stamped 5 [7]), none), (.set [2] (stamped 6 [8]), none),
      (.del [1] (stamped 5 []), none), (.set [1] (stamped 9 [9]), some .storeLimit),
      (.cas [2] (stamped 1 (leBytes 8 0 ++ stamped 8 [1])), some .casTimestamp)]
    (fun _ => .ok ()) () (by decide) (by decide +kernel)
  obtain ⟨hi, hv, -⟩ := run_refines_reference (by decide) hrun
  exact ⟨c, hrun, hi, by rw [hv]; decide +kernel, by rw [hv]; decide +kernel⟩

/-! ## Lookup -/

/-- **`Get` reads the dictionary** of a key whose hash word is not a reserved code. -/
theorem Ordered.get_eq {log : List Record} {m : Dict} (h : c.Ordered hash log m) {key : Bytes}
    (hkey : 2 ≤ (hash key).toUInt32) : c.get (hash key).toUInt32 key = .ok (m key) := by
  have hw : (hash key).toUInt32 = hashWord hash key := (hashReMap_of_two_le hkey).symm
  rw [get, hw]
  cases hk : m key with
  | none =>
    obtain ⟨i, -, hsearch, -⟩ := h.search_empty hk
    rw [hsearch]
    rfl
  | some v =>
    obtain ⟨i, -, hsearch, -, hr⟩ := h.search_found hk
    rw [hsearch, Call.ok_bind]
    dsimp only
    rw [(h.shows hr).val_eq]
    rfl

theorem Denotes.get_eq {log : List Record} {m : Dict} (h : c.Denotes hash log m) {key : Bytes}
    (hkey : 2 ≤ (hash key).toUInt32) : c.get (hash key).toUInt32 key = .ok (m key) :=
  h.ordered.get_eq hkey

/-- **What `Get` finds**, whatever the hash word: nothing, or the value of a record of the key that
a bucket of the word points at. -/
theorem Ordered.get_ends {log : List Record} {m : Dict} (h : c.Ordered hash log m) (w : UInt32)
    (key : Bytes) : c.get w key = .ok none ∨ ∃ i < c.hm.size, ¬ c.hm.Free i ∧ c.hm.getHash i = w
      ∧ ∃ r, c.hm.target log i = some r ∧ r.key = key ∧ c.get w key = .ok (some r.val) := by
  rw [get]
  rcases h.search_ends w key with ⟨i, -, hsearch, -⟩ | ⟨i, hi, hsearch, hne, hiw, r, hr, hrk⟩
  · rw [hsearch]
    exact Or.inl rfl
  · refine Or.inr ⟨i, hi, hne, hiw, r, hr, hrk, ?_⟩
    rw [hsearch, Call.ok_bind]
    dsimp only
    rw [(h.shows hr).val_eq]
    rfl

/-- A search for a key that no bucket points at ends at an empty one. -/
theorem Denotes.get_eq_none {log : List Record} {m : Dict} (h : c.Denotes hash log m) {key : Bytes}
    {w : UInt32} (hno : ∀ i < c.hm.size, c.hm.getHash i = w → ¬ c.hm.Free i →
      ∀ r, c.hm.target log i = some r → r.key ≠ key) : c.get w key = .ok none := by
  rcases h.ordered.get_ends w key with hnone | ⟨i, hi, hne, hiw, r, hr, hrk, -⟩
  · exact hnone
  · exact absurd hrk (hno i hi hiw hne r hr)

/-- `Get` returns, whatever the hash word. -/
theorem Denotes.get_returns {log : List Record} {m : Dict} (h : c.Denotes hash log m) (w : UInt32)
    (key : Bytes) : ∃ v, c.get w key = .ok v := by
  rcases h.ordered.get_ends w key with hnone | ⟨-, -, -, -, r, -, -, hsome⟩
  · exact ⟨none, hnone⟩
  · exact ⟨some r.val, hsome⟩

/-- The hash word `0` is that of the empty buckets, and finds nothing. -/
theorem Denotes.get_zero {log : List Record} {m : Dict} (h : c.Denotes hash log m) (key : Bytes) :
    c.get 0 key = .ok none :=
  h.get_eq_none fun _ _ h0 hne => absurd h0 hne

/-- A pair of the key fits the store, within the bytes a 32-bit word addresses. -/
def Fits (size : ℕ) (key : Bytes) : Prop := 20 + key.length < size ∧ 20 + key.length ≤ 2 ^ 32

/-- A key that does not fit never gets a record. -/
theorem absent_of_not_fits {key : Bytes} (hno : ¬ Fits size key)
    (hrun : Run (Step hash) (new path size) evs c) :
    ((Ledger.new size).run hash evs).Lacks key := by
  let R : PMap → Ledger → Prop := fun c L => c.Refines hash L ∧ L.size = size ∧ L.Lacks key
  have hR : R (new path size) (Ledger.new size) :=
    ⟨refines_new hash path size, rfl, rfl, fun r hr => nomatch hr⟩
  suffices hstep : ∀ {c ev c' L}, R c L → Step hash c ev c' → R c' (L.apply hash ev) from
    (hrun.simulates hstep hR).2.2
  rintro c ⟨op, e⟩ c' L ⟨h, hsize, hlacks⟩ hs
  have h' := (hs.refines h).2.1
  refine ⟨h', (Ledger.size_apply hash L _).trans hsize, (hs.effect h).lacks hlacks ?_⟩
  -- a pair that is written fits, so it is not one of `key`
  rintro k v hv hroom hL rfl
  have haddr := h'.isLog.addressable
  rw [h'.isLog.length_eq, hL] at haddr
  simp only [Ledger.write, logSize_append, logSize_cons, Record.size] at haddr
  rw [Ledger.Room, hsize, Record.size] at hroom
  exact hno ⟨by dsimp only at hroom; omega, by omega⟩

/-- A search that starts at an empty bucket ends there. -/
theorem get_of_free (hs : c.hm.Shaped) {w : UInt32} (hf : c.hm.Free (w.toNat &&& c.hm.sizeMask))
    (key : Bytes) : c.get w key = .ok none := by
  obtain ⟨n, hn⟩ := Nat.exists_eq_succ_of_ne_zero hs.size_pos.ne'
  have hsearch : c.search w key = .ok (.empty (w.toNat &&& c.hm.sizeMask)) := by
    rw [search, hn, probe]
    exact if_pos hf
  rw [get, hsearch]
  rfl

/-- The first pair of a new `PMap`. -/
theorem apply_set_new (hash : Bytes → UInt64) (path : String) {key v : Bytes} (hv : v.length = 8)
    (hfit : Fits size key) :
    (new path size).apply hash (.set key v) = .ok (none,
      { hm := (new path size).hm.fill
          ((hashReMap (hash key).toUInt32).toNat &&& (new path size).hm.sizeMask)
          (hashReMap (hash key).toUInt32) (UInt32.ofNat 0)
        st := (newStore size).append ⟨key, v⟩
        checksum := SyncChecksum.zero.sum (hash key ^^^ uint64 v) (unixTime v)
        path := path }) := by
  have hcheck : (new path size).hm.checkSpace = .ok (.ok (new path size).hm) := rfl
  have hsearch : (new path size).search (hashReMap (hash key).toUInt32) key = .ok (.empty
      ((hashReMap (hash key).toUInt32).toNat &&& (new path size).hm.sizeMask)) := rfl
  have hput : (new path size).st.put key v
      = .ok (.ok (UInt32.ofNat 0, (newStore size).append ⟨key, v⟩)) := by
    refine Store.put_eq ?_ ?_
    · rw [Record.size, hv]
      change 0 + (12 + key.length + 8) < size
      have := hfit.1
      omega
    · have := hfit.2
      omega
  rw [apply, set, if_neg (by omega), hcheck]
  dsimp only
  rw [Call.ok_bind]
  dsimp only
  rw [hsearch, Call.ok_bind]
  dsimp only
  rw [hput]
  rfl

/-- The first pair of a new `PMap`, if its hash word is a reserved code, is not seen by `Get`. -/
theorem get_set_new (hash : Bytes → UInt64) (path : String) {key v : Bytes} (hv : v.length = 8)
    (hfit : Fits size key) (hlow : ¬ 2 ≤ (hash key).toUInt32) :
    ∃ c', Step hash (new path size) (.set key v, none) c'
      ∧ c'.get (hash key).toUInt32 key = .ok none := by
  have hstep : Step hash (new path size) (.set key v, none) _ :=
    ⟨trivial, apply_set_new hash path hv hfit, by
      change 0 + (12 + key.length + v.length) ≤ 2 ^ 32
      have := hfit.2
      omega⟩
  have hvalid := (hstep.refines (refines_new hash path size)).2.1.index.valid
  refine ⟨_, hstep, get_of_free hvalid.toShaped ?_ key⟩
  have hmask : (new path size).hm.sizeMask = 65535 := (HashMap.shaped_newHashMap _ _).mask_eq
  rw [HashMap.Free, HashMap.getHash_fill]
  change (if (hash key).toUInt32.toNat &&& (new path size).hm.sizeMask = _ then _ else _) = _
  rw [hmask, if_neg]
  · rfl
  · -- the word is `0` or `1`, the pair's bucket `2` or `3`
    rcases reserved_of_not_two_le hlow with hw | hw <;> rw [hw] <;> decide

/-- **When `Get` agrees with the writers**: along every run, exactly if the hash word of the key is
not a reserved code, or no pair of the key fits the store. -/
theorem get_agrees_iff (hash : Bytes → UInt64) (path : String) (size : ℕ) (key : Bytes) :
    (∀ evs c, Run (Step hash) (new path size) evs c →
      c.get (hash key).toUInt32 key = .ok (c.value key))
    ↔ (2 ≤ (hash key).toUInt32 ∨ ¬ Fits size key) := by
  constructor
  · intro hall
    by_contra hnot
    obtain ⟨hlow, hfit⟩ := not_or.mp hnot
    rw [not_not] at hfit
    -- the run of one `Set` of the key
    obtain ⟨c, hstep, hmiss⟩ := get_set_new hash path (length_leBytes 8 0) hfit hlow
    have hget := hall _ _ (.cons hstep (.refl _))
    rw [(hstep.refines (refines_new hash path size)).2.1.value_eq, Ledger.dict_apply, hmiss] at hget
    have hnone : (none : Option Bytes) = some (leBytes 8 0) :=
      (Except.ok.inj hget).trans (Function.update_self _ _ _)
    cases hnone
  · rintro hcond evs c hrun
    have h := refines_run hrun
    rw [h.value_eq]
    rcases hcond with hkey | hno
    · exact h.toDenotes.get_eq hkey
    · obtain ⟨hdict, hlog⟩ := absent_of_not_fits hno hrun
      rw [hdict]
      exact h.toDenotes.get_eq_none fun i _ _ _ r hr => hlog r (mem_of_recordAt hr)

/-- A key whose hash ends in the code of a deleted bucket is stored, and `Get` does not see it. -/
theorem get_misses_reserved_code : ∃ evs c, Run (Step fnv1a64) (new "" 100) evs c
    ∧ c.value [22, 205, 196, 131] = some (stamped 5 [7])
    ∧ c.get (fnv1a64 [22, 205, 196, 131]).toUInt32 [22, 205, 196, 131] = .ok none := by
  obtain ⟨c, hrun, hget⟩ := exists_run fnv1a64 (new "" 100)
    [(.set [22, 205, 196, 131] (stamped 5 [7]), none)]
    (fun c => c.get (fnv1a64 [22, 205, 196, 131]).toUInt32 [22, 205, 196, 131]) none (by decide)
    (by decide +kernel)
  have hrun := run_step (by decide) hrun (refines_new fnv1a64 "" 100) rfl
  refine ⟨_, c, hrun, ?_, hget⟩
  rw [(refines_run hrun).value_eq, Ledger.dict_run]
  decide +kernel

end PMap

end Treeless
