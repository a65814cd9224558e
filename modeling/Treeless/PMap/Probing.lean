import Treeless.Machinery.Fuel
import Treeless.PMap.Scan

/-!
# PMap/Probing — the loops that search the index come to an end

    index ──empty──▸ stop
      └── not the key ──▸ (index + 1) & sizeMask

The loop has no counter: it ends because some bucket is empty.  `HashMap.Valid` says so by counting,
and every operation keeps it, whatever the store holds: a put that is denied, an expansion refused
at the limit, a key read past the end of the file.  None of it can make a search go round
(`Call.Stops`).
-/

namespace Treeless

/-! ## The store

Nothing in it loops: a call returns or leaves the mapping. -/

namespace Store

variable (st : Store)

theorem stops_sliceOf (lo hi : ℕ) : (st.sliceOf lo hi).Stops fun _ => True := by
  rw [sliceOf]
  split
  · exact trivial
  · exact Fault.noConfusion

theorem stops_first8 (s : Slice) : (st.first8 s).Stops fun _ => True := (st.stops_sliceOf _ _).map _

theorem stops_uint32 (off : ℕ) : (st.uint32 off).Stops fun _ => True := (st.stops_sliceOf _ _).map _

theorem stops_totalLen (index : ℕ) : (st.totalLen index).Stops fun _ => True :=
  (st.stops_uint32 _).bind fun _ => (st.stops_uint32 _).bind fun _ => trivial

theorem stops_keySlice (index : ℕ) : (st.keySlice index).Stops fun _ => True :=
  (st.stops_uint32 _).bind fun _ => st.stops_sliceOf _ _

theorem stops_valSlice (index : ℕ) : (st.valSlice index).Stops fun _ => True :=
  (st.stops_uint32 _).bind fun _ => (st.stops_totalLen _).bind fun _ => st.stops_sliceOf _ _

theorem stops_key (index : ℕ) : (st.key index).Stops fun _ => True := (st.stops_keySlice _).map _

theorem stops_val (index : ℕ) : (st.val index).Stops fun _ => True := (st.stops_valSlice _).map _

theorem stops_putUint32 (off x : ℕ) : (st.putUint32 off x).Stops fun _ => True :=
  (st.stops_sliceOf _ _).bind fun _ => trivial

theorem stops_put (key val : Bytes) : (st.put key val).Stops fun _ => True := by
  rw [put]
  split
  · exact trivial
  refine (stops_putUint32 _ _ _).bind fun _ => (stops_putUint32 _ _ _).bind fun _ => ?_
  refine (stops_keySlice _ _).bind fun _ => (stops_valSlice _ _).bind fun _ => ?_
  exact (stops_putUint32 _ _ _).bind fun _ => trivial

end Store

/-! ## Where a search lands -/

namespace HashMap

variable {m : HashMap}

theorem Valid.expand_lt_size (h : m.Valid) : m.numKeysToExpand < m.size := by
  have h1 := h.full_eq
  have h2 := h.size_pos
  omega

/-- **From every start there is an empty bucket ahead.** -/
theorem exists_seek_free (h : m.used < m.size) {i : ℕ} (hi : i < m.size) :
    ∃ j, seek m.size m.Free m.size i = some j := by
  obtain ⟨f, hf, hfree⟩ := exists_free h
  exact exists_seek hi hf hfree

/-- A bucket of the hash word, pointed at another address. -/
theorem Valid.point_of_hash (hm : m.Valid) {i : ℕ} {h : UInt32} (hw : m.getHash i = h)
    (s : UInt32) : (m.point i h s).Valid := hw ▸ hm.point i s

/-- The placing loop ends, from every start. -/
theorem exists_place (hm : m.Shaped) (hroom : m.used < m.size) (h s : UInt32) {i : ℕ}
    (hi : i < m.size) : ∃ N, m.place h s m.size i = .ok N := by
  obtain ⟨j, hj⟩ := exists_seek_free hroom hi
  exact ⟨_, by rw [place_eq hm, hj]⟩

/-- The copy is never full. -/
theorem Rehashed.used_lt_size {i : ℕ} {N : HashMap} (hm : m.Shaped) (hi : i ≤ m.size)
    (hN : Rehashed m i N) : N.used < N.size := by
  have hcard := Finset.card_filter_le (Finset.range i) fun j => 2 ≤ m.getHash j
  rw [← hN.used_eq, Finset.card_range] at hcard
  have hsz := hN.size_eq' hm
  have hpos := hm.size_pos
  omega

/-- Where a search for the hash word `h` may end, if it started at the bucket `h` names. -/
inductive Lands (m : HashMap) (h : UInt32) : Slot → Prop
  | empty {j : ℕ} (hj : j < m.size) (hf : m.Free j)
      (hl : Linked m.size m.Free (h.toNat % m.size) j) : Lands m h (.empty j)
  | found {j : ℕ} {s : UInt32} (hf : ¬ m.Free j) (hw : m.getHash j = h) : Lands m h (.found j s)

end HashMap

namespace PMap

variable {c c' : PMap}

/-- **How the probing loop ends**, whatever the keys are: it reaches the first empty bucket, or a
bucket of the hash word before; only if there is none does it go round. -/
theorem probe_ends (hs : c.hm.Shaped) (h : UInt32) (key : Bytes) : ∀ fuel i : ℕ,
    (c.probe h key fuel i).Ends (fun f => f = .endless → seek c.hm.size c.hm.Free fuel i = none)
      fun slot => (∃ j, slot = .empty j ∧ seek c.hm.size c.hm.Free fuel i = some j)
        ∨ ∃ j s, slot = .found j s ∧ ¬ c.hm.Free j ∧ c.hm.getHash j = h
  | 0, _ => fun _ => rfl
  | fuel + 1, i => by
      have ih := probe_ends hs h key fuel ((i + 1) % c.hm.size)
      rw [probe, seek]
      by_cases hf : c.hm.getHash i = emptyBucket
      · rw [if_pos hf, if_pos (show c.hm.Free i from hf)]
        exact Or.inl ⟨i, rfl, rfl⟩
      rw [if_neg hf, if_neg (show ¬ c.hm.Free i from hf), hs.and_mask]
      by_cases hh : h = c.hm.getHash i
      · rw [if_pos hh]
        refine ((c.st.stops_key _).mono (fun f hne heq => absurd heq hne) fun _ h => h).seq
          fun k _ => ?_
        split
        · exact Or.inr ⟨i, _, rfl, hf, hh.symm⟩
        · exact ih
      · rw [if_neg hh]
        exact ih

/-- **The probing loop ends, from every start.** -/
theorem stops_probe (hm : c.hm.Valid) (h : UInt32) (key : Bytes) {i : ℕ} (hi : i < c.hm.size) :
    (c.probe h key c.hm.size i).Stops fun slot =>
      (∃ j, slot = .empty j ∧ seek c.hm.size c.hm.Free c.hm.size i = some j)
        ∨ ∃ j s, slot = .found j s ∧ ¬ c.hm.Free j ∧ c.hm.getHash j = h := by
  obtain ⟨j, hj⟩ := HashMap.exists_seek_free hm.used_lt_size hi
  refine (probe_ends hm.toShaped h key c.hm.size i).mono (fun f hnone heq => ?_) fun _ h => h
  cases hj.symm.trans (hnone heq)

theorem stops_search (hm : c.hm.Valid) (h : UInt32) (key : Bytes) :
    (c.search h key).Stops (c.hm.Lands h) := by
  have hhome : h.toNat % c.hm.size < c.hm.size := Nat.mod_lt _ hm.size_pos
  rw [search, hm.and_mask]
  refine (stops_probe hm h key hhome).mono (fun _ h => h) ?_
  rintro slot (⟨j, rfl, hj⟩ | ⟨j, s, rfl, hf, hw⟩)
  · exact .empty (seek_lt hhome hj) (stop_of_seek hhome hj)
      (linked_of_seek hhome (fun _ h => h) hj)
  · exact .found hf hw

/-! ## The operations

Each finds the array with room for a key, or leaves it, and searches it once. -/

/-- The array a check for space leaves, and that it has room. -/
theorem stops_checkSpace {m : HashMap} (hm : m.Valid) : m.checkSpace.Stops fun space =>
    ∀ N, space = .ok N → N.Valid ∧ N.numStoredKeys < N.numKeysToExpand := by
  rcases HashMap.checkSpace_eq hm.toShaped with ⟨-, hcs⟩ | ⟨-, N, hcs, hs⟩
  · rw [hcs]
    exact fun N h => by cases h
  · rw [hcs]
    rintro _ ⟨⟩
    refine ⟨?_, hs.room hm⟩
    rcases hs with ⟨-, rfl⟩ | ⟨-, -, hN⟩
    · exact hm
    · exact (hN.valid hm).1

theorem stops_get (hm : c.hm.Valid) (h32 : UInt32) (key : Bytes) :
    (c.get h32 key).Stops fun _ => True := by
  rw [get]
  refine (stops_search hm h32 key).seq fun slot _ => ?_
  split
  · exact trivial
  · exact (c.st.stops_val _).map _

/-- **A `Set` ends**, and keeps the array in order. -/
theorem stops_set (hm : c.hm.Valid) (h64 : UInt64) (key value : Bytes) :
    (c.set h64 key value).Stops fun p => p.2.hm.Valid := by
  have h2 := two_le_hashReMap h64.toUInt32
  rw [set]
  split
  · exact hm
  refine (stops_checkSpace hm).seq fun space hspace => ?_
  cases space with
  | error e => exact hm
  | ok N =>
    obtain ⟨hN, hroom⟩ := hspace N rfl
    refine (stops_search (c := { c with hm := N }) hN _ _).seq fun slot hland => ?_
    cases hland with
    | empty hj hf hl =>
      refine (Store.stops_put _ _ _).bind fun put => ?_
      split
      · exact hN
      · exact hN.fill hj hf h2 hl hroom _
    | found hf hw =>
      refine (Store.stops_valSlice _ _).bind fun v => (Store.stops_first8 _ _).bind fun old => ?_
      dsimp only
      split
      · exact hN
      refine (Store.stops_put _ _ _).bind fun put => ?_
      split
      · exact hN
      · exact (Store.stops_first8 _ _).bind fun _ => hN.point_of_hash hw _

/-- **A `CAS` ends**, and keeps the array in order. -/
theorem stops_cas (hm : c.hm.Valid) (h64 : UInt64) (key value : Bytes) :
    (c.cas h64 key value).Stops fun p => p.2.hm.Valid := by
  have h2 := two_le_hashReMap h64.toUInt32
  rw [cas]
  split
  · exact hm
  refine (stops_checkSpace hm).seq fun space hspace => ?_
  cases space with
  | error e => exact hm
  | ok N =>
    obtain ⟨hN, hroom⟩ := hspace N rfl
    refine (stops_search (c := { c with hm := N }) hN _ _).seq fun slot hland => ?_
    cases hland with
    | empty hj hf hl =>
      dsimp only
      split
      · exact hN
      refine (Store.stops_put _ _ _).bind fun put => ?_
      split
      · exact hN
      · exact hN.fill hj hf h2 hl hroom _
    | found hf hw =>
      refine (Store.stops_valSlice _ _).bind fun v => (Store.stops_first8 _ _).bind fun old => ?_
      split
      · exact hN
      split
      · exact Fault.noConfusion
      split
      · exact hN
      refine (Store.stops_put _ _ _).bind fun put => ?_
      split
      · exact hN
      · exact hN.point_of_hash hw _

/-- **A `Del` ends**, and keeps the array in order. -/
theorem stops_del (hm : c.hm.Valid) (h64 : UInt64) (key value : Bytes) :
    (c.del h64 key value).Stops fun p => p.2.hm.Valid := by
  have h2 := two_le_hashReMap h64.toUInt32
  rw [del]
  refine (stops_search hm _ _).seq fun slot hland => ?_
  cases hland with
  | empty => exact hm
  | found hf hw =>
    have hdel := hm.setDeleted (hw.symm ▸ h2)
    refine (Store.stops_valSlice _ _).bind fun v => (Store.stops_first8 _ _).bind fun old => ?_
    split
    · exact Fault.noConfusion
    dsimp only
    split
    · exact hm
    refine (Store.stops_put _ _ _).bind fun put => ?_
    split
    · exact hdel
    · exact hdel

/-- **A pair found in the file is restored**, and the array stays in order. -/
theorem stops_restorePair (hm : c.hm.Valid) (key : Bytes) (value : Slice) (storeIndex : UInt32) :
    (c.restorePair key value storeIndex).Stops fun p => p.2.hm.Valid := by
  have h2 := two_le_hashReMap (fnv1a64 key).toUInt32
  rw [restorePair]
  refine (stops_checkSpace hm).seq fun space hspace => ?_
  cases space with
  | error e => exact hm
  | ok N =>
    obtain ⟨hN, hroom⟩ := hspace N rfl
    refine (stops_search (c := { c with hm := N }) hN _ _).seq fun slot hland => ?_
    cases hland with
    | empty hj hf hl =>
      exact (Store.stops_first8 _ _).bind fun _ => hN.fill hj hf h2 hl hroom _
    | found hf hw =>
      refine (Store.stops_valSlice _ _).bind fun v => (Store.stops_first8 _ _).bind fun new => ?_
      refine (Store.stops_first8 _ _).bind fun old => ?_
      split
      · exact hN.point_of_hash hw _
      · exact hN.setDeleted (hw.symm ▸ h2)

/-! ## Opening a file -/

/-- **A turn of the restoring loop ends**, and moves on. -/
theorem stops_restoreRecord (hm : c.hm.Valid) (index : ℕ) :
    (c.restoreRecord index).Stops fun p =>
      p.1.hm.Valid ∧ p.1.st.size = c.st.size ∧ index < p.2 := by
  rw [restoreRecord]
  refine (Store.stops_key _ _).bind fun key => (Store.stops_valSlice _ _).bind fun val => ?_
  have hpair := (stops_restorePair hm key val (UInt32.ofNat index)).and
    (c.file_restorePair key val (UInt32.ofNat index))
  refine hpair.seq fun p hp => ?_
  dsimp only
  split
  · exact (Store.stops_totalLen _ _).bind fun total => ⟨hp.1, hp.2.2, by omega⟩
  · exact (Store.stops_totalLen _ _).bind fun total => ⟨hp.1, hp.2.2, by omega⟩

/-- The restoring loop ends: it moves on in every turn, and leaves the file at its end. -/
theorem stops_restoreLoop : ∀ (fuel : ℕ) {c : PMap} {index : ℕ}, c.hm.Valid →
    c.st.size < index + fuel → 0 < fuel → (restoreLoop c fuel index).Stops fun c' => c'.hm.Valid
  | 0, _, _, _, _, hpos => absurd hpos (lt_irrefl 0)
  | fuel + 1, c, index, hm, hfuel, _ => by
      have hlen := (c.st.stops_uint32 (index + headerKeyOffset)).and fun _ =>
        @room_of_keyLen c.st index _
      rw [restoreLoop]
      refine hlen.seq fun len hroom => ?_
      replace hroom := hroom.2
      split
      · exact hm
      · refine (stops_restoreRecord hm index).seq fun p hp => ?_
        obtain ⟨hvalid, hsize, hnext⟩ := hp
        exact stops_restoreLoop fuel hvalid (by omega) (by omega)

/-- **`Open` ends**, on whatever file, and leaves the array in order. -/
theorem stops_open (path : String) (f : File) : (PMap.open path f).Stops fun c => c.hm.Valid := by
  refine stops_restoreLoop _ (HashMap.valid_newHashMap ..) ?_ (Nat.succ_pos _)
  change f.size < 0 + (f.size + 1)
  omega

/-! ## Every state -/

/-- A `PMap` that requests have led to, from a new one or from whatever file was opened.  The hash
that comes with a request may be any. -/
inductive Built : PMap → Prop
  | new (path : String) (size : ℕ) : Built (new path size)
  | «open» {path : String} {f : File} {c : PMap} (hx : PMap.open path f = .ok c) : Built c
  | set {c c' : PMap} {h64 : UInt64} {key value : Bytes} {e : Option Error} (hc : Built c)
      (hx : c.set h64 key value = .ok (e, c')) : Built c'
  | cas {c c' : PMap} {h64 : UInt64} {key value : Bytes} {e : Option Error} (hc : Built c)
      (hx : c.cas h64 key value = .ok (e, c')) : Built c'
  | del {c c' : PMap} {h64 : UInt64} {key value : Bytes} {e : Option Error} (hc : Built c)
      (hx : c.del h64 key value = .ok (e, c')) : Built c'

theorem Built.valid (hc : Built c) : c.hm.Valid := by
  induction hc with
  | new => exact HashMap.valid_newHashMap ..
  | «open» hx => exact (stops_open _ _).returns _ hx
  | set _ hx ih => exact (stops_set ih _ _ _).returns _ hx
  | cas _ hx ih => exact (stops_cas ih _ _ _).returns _ hx
  | del _ hx ih => exact (stops_del ih _ _ _).returns _ hx

/-- **Probing terminates.**  The stored keys are the buckets in use, at most seven tenths of them;
so there is an empty one, ahead of every start, and the loops of every operation end. -/
theorem probing_terminates (hc : Built c) :
    c.hm.numStoredKeys = c.hm.used
    ∧ c.hm.numStoredKeys ≤ c.hm.numKeysToExpand
    ∧ c.hm.numKeysToExpand = c.hm.size * 7 / 10
    ∧ c.hm.numKeysToExpand < c.hm.size
    ∧ (∃ i < c.hm.size, c.hm.getHash i = emptyBucket)
    -- the loops themselves, from every start, in the array and in each copy `expand` makes of it
    ∧ (∀ h key, ∀ i < c.hm.size, c.probe h key c.hm.size i ≠ .error .endless)
    ∧ (∀ i ≤ c.hm.size, ∃ N,
        (List.range i).foldlM c.hm.rehash (newHashMap (c.hm.sizelog2 + 1) c.hm.sizeLimit) = .ok N
        ∧ ∀ h s, ∀ j < N.size, ∃ N', N.place h s N.size j = .ok N')
    -- the operations
    ∧ c.hm.expand ≠ .error .endless
    ∧ (∀ h32 key, c.get h32 key ≠ .error .endless)
    ∧ (∀ h64 key value, c.set h64 key value ≠ .error .endless)
    ∧ (∀ h64 key value, c.cas h64 key value ≠ .error .endless)
    ∧ (∀ h64 key value, c.del h64 key value ≠ .error .endless)
    ∧ (∀ key value s, c.restorePair key value s ≠ .error .endless)
    ∧ ∀ path f, PMap.open path f ≠ .error .endless := by
  have hm := hc.valid
  refine ⟨hm.stored_eq, hm.load, hm.full_eq, hm.expand_lt_size,
    HashMap.exists_free hm.used_lt_size, fun h key i hi => (stops_probe hm h key hi).ne_endless,
    fun i hi => ?_, ?_, fun h32 key => (stops_get hm h32 key).ne_endless,
    fun h64 key value => (stops_set hm h64 key value).ne_endless,
    fun h64 key value => (stops_cas hm h64 key value).ne_endless,
    fun h64 key value => (stops_del hm h64 key value).ne_endless,
    fun key value s => (stops_restorePair hm key value s).ne_endless,
    fun path f => (stops_open path f).ne_endless⟩
  · obtain ⟨N, hfold, hN⟩ := HashMap.foldlM_rehash hm.toShaped i hi
    exact ⟨N, hfold, fun h s j hj =>
      HashMap.exists_place hN.toShaped (hN.used_lt_size hm.toShaped hi) h s hj⟩
  · intro hend
    rcases HashMap.expand_eq hm.toShaped with ⟨-, he⟩ | ⟨-, N, he, -⟩
    · cases he.symm.trans hend
    · cases he.symm.trans hend

/-- Three pairs of one hash word, the first of which is deleted. -/
def crowded : Call PMap := do
  let (_, c) ← (new "" 100).set 2 [1] (leBytes 8 5)
  let (_, c) ← c.set 2 [2] (leBytes 8 5)
  let (_, c) ← c.set 2 [3] (leBytes 8 5)
  let (_, c) ← c.del 2 [1] (leBytes 8 6)
  return c

theorem built_of_crowded (h : crowded = .ok c) : Built c := by
  obtain ⟨⟨e₁, c₁⟩, h₁, h⟩ := Call.bind_eq_ok.mp h
  obtain ⟨⟨e₂, c₂⟩, h₂, h⟩ := Call.bind_eq_ok.mp h
  obtain ⟨⟨e₃, c₃⟩, h₃, h⟩ := Call.bind_eq_ok.mp h
  obtain ⟨⟨e₄, c₄⟩, h₄, h⟩ := Call.bind_eq_ok.mp h
  obtain rfl := Except.ok.inj h
  exact .del (.set (.set (.set (.new "" 100) h₁) h₂) h₃) h₄

/-- A search that goes past a deleted bucket and one in use to its key, and one that goes past all
three to an empty bucket. -/
theorem probing_terminates_crowded : ∃ c, crowded = .ok c
    ∧ c.hm.getHash 2 = deletedBucket ∧ c.hm.getHash 3 = 2 ∧ c.search 2 [3] = .ok (.found 4 42)
    ∧ c.search 2 [4] = .ok (.empty 5) ∧ c.hm.numStoredKeys = 3
    ∧ c.hm.used = 3 ∧ 3 ≤ c.hm.numKeysToExpand
    ∧ (∀ h key, ∀ i < c.hm.size, c.probe h key c.hm.size i ≠ .error .endless)
    ∧ ∀ h64 key value, c.set h64 key value ≠ .error .endless := by
  have hobs : crowded.map (fun c => (c.hm.getHash 2, c.hm.getHash 3, c.search 2 [3],
      c.search 2 [4], c.hm.numStoredKeys)) = .ok (deletedBucket, 2, .ok (.found 4 42),
        .ok (.empty 5), 3) := by decide +kernel
  obtain ⟨c, hc, hobs⟩ := Call.map_eq_ok.mp hobs
  obtain ⟨h2, h3, hfound, hempty, hstored⟩ : c.hm.getHash 2 = deletedBucket ∧ c.hm.getHash 3 = 2
      ∧ c.search 2 [3] = .ok (.found 4 42) ∧ c.search 2 [4] = .ok (.empty 5)
      ∧ c.hm.numStoredKeys = 3 := by simpa only [Prod.mk.injEq] using hobs
  obtain ⟨hused, hle, -, -, -, hprobe, -, -, -, hset, -⟩ :=
    probing_terminates (built_of_crowded hc)
  exact ⟨c, hc, h2, h3, hfound, hempty, hstored, hused.symm.trans hstored, hstored ▸ hle, hprobe,
    hset⟩

end PMap

end Treeless
