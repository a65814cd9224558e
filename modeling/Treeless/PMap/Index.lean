import Treeless.PMap.Ledger
import Treeless.PMap.Buckets
import Treeless.PMap.PMap

/-!
# PMap/Index — the bucket array as the index of a log

`HashMap.Files hash hm log m` is the relation between the bucket array, the records of the store and
the dictionary `m` they stand for: every live bucket is filed under its key's hash word and points
at a record of its key, whose value is the one `m` gives; every key of `m` has such a bucket, and
only one.  It holds whatever the records are.  `HashMap.Indexes` says of the records that the one a
key's bucket points at is its last, with a timestamp.  Each way the primitives change the array is
one lemma here.
-/

namespace Treeless

/-- The hash word a key is filed under. -/
def hashWord (hash : Bytes → UInt64) (key : Bytes) : UInt32 := hashReMap (hash key).toUInt32

theorem hashReMap_eq (hash : Bytes → UInt64) (key : Bytes) :
    hashReMap (hash key).toUInt32 = hashWord hash key := rfl

theorem two_le_hashWord (hash : Bytes → UInt64) (key : Bytes) : 2 ≤ hashWord hash key :=
  two_le_hashReMap _

namespace HashMap

/-- The record a bucket points at. -/
def target (hm : HashMap) (log : List Record) (i : ℕ) : Option Record :=
  recordAt log (hm.getStoreIndex i).toNat

/-- The bucket array `hm` indexes the dictionary `m` over the records `log`. -/
structure Indexes (hash : Bytes → UInt64) (hm : HashMap) (log : List Record) (m : Dict) : Prop where
  valid : hm.Valid
  limit_eq : hm.sizeLimit = defaultHashMapSizeLimit
  size_le : hm.size ≤ hm.sizeLimit
  /-- Every bucket in use points at a record. -/
  tagged : ∀ i < hm.size, ¬ hm.Free i → ∃ r, hm.target log i = some r
  /-- A live bucket holds a pair of `m`, under the hash word of its key. -/
  live : ∀ i < hm.size, 2 ≤ hm.getHash i → ∀ r, hm.target log i = some r →
    hm.getHash i = hashWord hash r.key ∧ m r.key = some r.val ∧ 8 ≤ r.val.length
  /-- A pair of `m` has a live bucket. -/
  mem : ∀ k v, m k = some v → ∃ i < hm.size, 2 ≤ hm.getHash i ∧ hm.target log i = some ⟨k, v⟩
  /-- A key has at most one live bucket. -/
  unique : ∀ i < hm.size, ∀ j < hm.size, 2 ≤ hm.getHash i → 2 ≤ hm.getHash j →
    ∀ r r', hm.target log i = some r → hm.target log j = some r' → r.key = r'.key → i = j
  /-- A live bucket points at the last record of its key. -/
  latest : ∀ i < hm.size, 2 ≤ hm.getHash i → ∀ r, hm.target log i = some r →
    ∀ off r', recordAt log off = some r' → r'.key = r.key → off ≤ (hm.getStoreIndex i).toNat

/-- The bucket array `hm` files the dictionary `m` over the records `log`. -/
structure Files (hash : Bytes → UInt64) (hm : HashMap) (log : List Record) (m : Dict) : Prop where
  valid : hm.Valid
  /-- Every bucket in use points at a record. -/
  tagged : ∀ i < hm.size, ¬ hm.Free i → ∃ r, hm.target log i = some r
  /-- A live bucket holds a pair of `m`, under the hash word of its key. -/
  live : ∀ i < hm.size, 2 ≤ hm.getHash i → ∀ r, hm.target log i = some r →
    hm.getHash i = hashWord hash r.key ∧ m r.key = some r.val
  /-- A pair of `m` has a live bucket. -/
  mem : ∀ k v, m k = some v → ∃ i < hm.size, 2 ≤ hm.getHash i ∧ hm.target log i = some ⟨k, v⟩
  /-- A key has at most one live bucket. -/
  unique : ∀ i < hm.size, ∀ j < hm.size, 2 ≤ hm.getHash i → 2 ≤ hm.getHash j →
    ∀ r r', hm.target log i = some r → hm.target log j = some r' → r.key = r'.key → i = j

variable {hash : Bytes → UInt64} {hm : HashMap} {log : List Record} {m : Dict}

/-- A bucket that is live after one was marked deleted is another one, as it was. -/
theorem live_setDeleted {i j : ℕ} (hj : 2 ≤ (hm.setHash i deletedBucket).getHash j) :
    j ≠ i ∧ (hm.setHash i deletedBucket).getHash j = hm.getHash j := by
  rw [getHash_setHash] at hj ⊢
  split at hj
  · exact absurd hj (by decide)
  · next hji => exact ⟨hji, if_neg hji⟩

/-- A live bucket of the doubled array has the two words of a live bucket of the old one. -/
theorem Rehashed.exists_old {N : HashMap} (hN : Rehashed hm hm.size N) {j : ℕ} (hj : j < N.size)
    (hj2 : 2 ≤ N.getHash j) : ∃ i < hm.size, 2 ≤ hm.getHash i ∧ hm.getHash i = N.getHash j
      ∧ hm.getStoreIndex i = N.getStoreIndex j := by
  obtain ⟨i, hi, -, hih, his⟩ := (hN.entry_iff _ _).mp ⟨j, hj, hj2, rfl, rfl⟩
  exact ⟨i, hi, by rw [hih]; exact hj2, hih, his⟩

theorem Indexes.files (h : hm.Indexes hash log m) : hm.Files hash log m :=
  ⟨h.valid, h.tagged, fun i hi hi2 r hr => ⟨(h.live i hi hi2 r hr).1, (h.live i hi hi2 r hr).2.1⟩,
    h.mem, h.unique⟩

namespace Files

theorem target_append (h : hm.Files hash log m) {i : ℕ} (hi : i < hm.size) (hne : ¬ hm.Free i)
    (log' : List Record) : hm.target (log ++ log') i = hm.target log i := by
  obtain ⟨r, hr⟩ := h.tagged i hi hne
  rw [hr]
  exact recordAt_append_of_some log' hr

theorem distinct (h : hm.Files hash log m) : hm.Distinct := by
  intro i hi j hj hi2 hj2 heq
  obtain ⟨r, hr⟩ := h.tagged i hi (not_free_of_two_le hi2)
  have hr' : hm.target log j = some r := by rw [target, ← heq]; exact hr
  exact h.unique i hi j hj hi2 hj2 r r hr hr' rfl

/-- A key of `m` keeps every other live bucket away. -/
theorem key_ne (h : hm.Files hash log m) {i j : ℕ} (hi : i < hm.size) (hj : j < hm.size)
    (hji : j ≠ i) (hi2 : 2 ≤ hm.getHash i) (hj2 : 2 ≤ hm.getHash j) {r r' : Record}
    (hr : hm.target log i = some r) (hr' : hm.target log j = some r') : r'.key ≠ r.key :=
  fun heq => hji (h.unique j hj i hi hj2 hi2 r' r hr' hr heq)

/-- A new array files the empty dictionary. -/
theorem new (hash : Bytes → UInt64) (log2 limit : ℕ) :
    (newHashMap log2 limit).Files hash [] fun _ => none :=
  ⟨valid_newHashMap _ _, fun j _ h => absurd (free_newHashMap _ _ j) h,
    fun j _ h => absurd h (not_live_newHashMap _ _ j), fun _ _ h => (by cases h),
    fun j _ _ _ h => absurd h (not_live_newHashMap _ _ j)⟩

/-- **A record behind the log** changes nothing. -/
theorem append (h : hm.Files hash log m) (r₀ : Record) : hm.Files hash (log ++ [r₀]) m := by
  have htarget : ∀ j < hm.size, ¬ hm.Free j → hm.target (log ++ [r₀]) j = hm.target log j :=
    fun j hj hne => h.target_append hj hne _
  refine ⟨h.valid, ?_, ?_, ?_, ?_⟩
  · intro j hj hne
    rw [htarget j hj hne]
    exact h.tagged j hj hne
  · intro j hj hj2 r hr
    rw [htarget j hj (not_free_of_two_le hj2)] at hr
    exact h.live j hj hj2 r hr
  · intro k' v' hk'
    obtain ⟨j, hj, hj2, hr⟩ := h.mem k' v' hk'
    exact ⟨j, hj, hj2, by rw [htarget j hj (not_free_of_two_le hj2), hr]⟩
  · intro j hj l hl hj2 hl2 r r' hr hr'
    rw [htarget j hj (not_free_of_two_le hj2)] at hr
    rw [htarget l hl (not_free_of_two_le hl2)] at hr'
    exact h.unique j hj l hl hj2 hl2 r r' hr hr'

end Files

/-- A new array indexes the empty dictionary. -/
theorem Indexes.new (hash : Bytes → UInt64) :
    (newHashMap defaultHashMapInitialLog2Size defaultHashMapSizeLimit).Indexes hash []
      fun _ => none :=
  ⟨valid_newHashMap _ _, rfl, by decide, fun j _ h => absurd (free_newHashMap _ _ j) h,
    fun j _ h => absurd h (not_live_newHashMap _ _ j), fun _ _ h => (nomatch h),
    fun j _ _ _ h => absurd h (not_live_newHashMap _ _ j),
    fun j _ h => absurd h (not_live_newHashMap _ _ j)⟩

/-- `hm'` is `hm` with the bucket `i`, which no other key uses, filed for the key `k` under the
address behind the log. -/
structure Filed (hash : Bytes → UInt64) (log : List Record) (hm hm' : HashMap) (k : Bytes) (i : ℕ) :
    Prop where
  valid : hm'.Valid
  size_eq : hm'.size = hm.size
  limit_eq : hm'.sizeLimit = hm.sizeLimit
  lt_size : i < hm.size
  addressable : logSize log < 2 ^ 32
  hash_eq : ∀ j, hm'.getHash j = if j = i then hashWord hash k else hm.getHash j
  address_eq : ∀ j, hm'.getStoreIndex j
    = if j = i then UInt32.ofNat (logSize log) else hm.getStoreIndex j
  self : 2 ≤ hm.getHash i → ∀ r, hm.target log i = some r → r.key = k
  other : ∀ j < hm.size, j ≠ i → 2 ≤ hm.getHash j → ∀ r, hm.target log j = some r → r.key ≠ k

namespace Filed

variable {hm' : HashMap} {k v : Bytes} {i j : ℕ}

theorem hash_self (hf : Filed hash log hm hm' k i) : hm'.getHash i = hashWord hash k := by
  rw [hf.hash_eq, if_pos rfl]

theorem hash_of_ne (hf : Filed hash log hm hm' k i) (hji : j ≠ i) :
    hm'.getHash j = hm.getHash j := by
  rw [hf.hash_eq, if_neg hji]

theorem address_self (hf : Filed hash log hm hm' k i) :
    (hm'.getStoreIndex i).toNat = logSize log := by
  rw [hf.address_eq, if_pos rfl, UInt32.toNat_ofNat_of_lt' hf.addressable]

theorem target_self (hf : Filed hash log hm hm' k i) (v : Bytes) :
    hm'.target (log ++ [⟨k, v⟩]) i = some ⟨k, v⟩ := by
  rw [target, hf.address_self, recordAt_append_self]

theorem target_of_ne (hf : Filed hash log hm hm' k i) (h : hm.Files hash log m) (v : Bytes)
    (hj : j < hm.size) (hji : j ≠ i) (hne : ¬ hm.Free j) :
    hm'.target (log ++ [⟨k, v⟩]) j = hm.target log j := by
  rw [← h.target_append hj hne [⟨k, v⟩], target, target, hf.address_eq, if_neg hji]

/-- **A live bucket of the new array** is the new one, or an old live one of another key. -/
theorem live_cases (hf : Filed hash log hm hm' k i) (h : hm.Files hash log m) (hj : j < hm'.size)
    (hj2 : 2 ≤ hm'.getHash j) {r : Record} (hr : hm'.target (log ++ [⟨k, v⟩]) j = some r) :
    (j = i ∧ r = ⟨k, v⟩)
      ∨ (j ≠ i ∧ j < hm.size ∧ 2 ≤ hm.getHash j ∧ hm.target log j = some r ∧ r.key ≠ k) := by
  rw [hf.size_eq] at hj
  by_cases hji : j = i
  · subst hji
    exact Or.inl ⟨rfl, (Option.some.inj ((hf.target_self v).symm.trans hr)).symm⟩
  · rw [hf.hash_of_ne hji] at hj2
    rw [hf.target_of_ne h v hj hji (not_free_of_two_le hj2)] at hr
    exact Or.inr ⟨hji, hj, hj2, hr, hf.other j hj hji hj2 r hr⟩

/-- A record of a key is not behind the bucket that is filed for it. -/
theorem latest (hf : Filed hash log hm hm' k i) {off : ℕ} {r : Record}
    (hoff : recordAt (log ++ [⟨k, v⟩]) off = some r) : off ≤ (hm'.getStoreIndex i).toNat := by
  rw [hf.address_self]
  rcases recordAt_append_singleton hoff with hoff | ⟨hoff, -⟩
  · have := add_size_le_of_recordAt hoff
    omega
  · exact hoff.le

end Filed

namespace Files

/-- **Filing the pair of a key** adds it, or replaces the one the key has. -/
theorem file (h : hm.Files hash log m) {hm' : HashMap} {k : Bytes} {i : ℕ}
    (hf : Filed hash log hm hm' k i) (v : Bytes) :
    hm'.Files hash (log ++ [⟨k, v⟩]) (Function.update m k (some v)) := by
  refine ⟨hf.valid, ?_, ?_, ?_, ?_⟩
  · intro j hj hne
    by_cases hji : j = i
    · exact ⟨_, hji ▸ hf.target_self v⟩
    · rw [Free, hf.hash_of_ne hji] at hne
      rw [hf.size_eq] at hj
      rw [hf.target_of_ne h v hj hji hne]
      exact h.tagged j hj hne
  · intro j hj hj2 r hr
    rcases hf.live_cases h hj hj2 hr with ⟨rfl, rfl⟩ | ⟨hji, hj, hj2, hr, hrk⟩
    · exact ⟨hf.hash_self, Function.update_self _ _ _⟩
    · rw [hf.hash_of_ne hji, Function.update_of_ne hrk]
      exact h.live j hj hj2 r hr
  · intro k' v' hk'
    by_cases hkk : k' = k
    · subst hkk
      rw [Function.update_self] at hk'
      obtain rfl := Option.some.inj hk'
      exact ⟨i, hf.size_eq ▸ hf.lt_size, hf.hash_self ▸ two_le_hashWord _ _, hf.target_self v⟩
    · rw [Function.update_of_ne hkk] at hk'
      obtain ⟨j, hj, hj2, hr⟩ := h.mem k' v' hk'
      have hji : j ≠ i := fun h0 => hkk (hf.self (h0 ▸ hj2) _ (h0 ▸ hr))
      exact ⟨j, hf.size_eq ▸ hj, hf.hash_of_ne hji ▸ hj2,
        (hf.target_of_ne h v hj hji (not_free_of_two_le hj2)).trans hr⟩
  · intro j hj l hl hj2 hl2 r r' hr hr' heq
    rcases hf.live_cases h hj hj2 hr with ⟨rfl, rfl⟩ | ⟨hji, hj, hj2, hr, hrk⟩ <;>
      rcases hf.live_cases h hl hl2 hr' with ⟨rfl, rfl⟩ | ⟨hli, hl, hl2, hr', hrk'⟩
    · rfl
    · exact absurd heq.symm hrk'
    · exact absurd heq hrk
    · exact h.unique j hj l hl hj2 hl2 r r' hr hr' heq

/-- An empty bucket, filled for an absent key. -/
theorem filed_fill (h : hm.Files hash log m) {k : Bytes} (hk : m k = none) {i : ℕ}
    (hi : i < hm.size) (hf : hm.Free i)
    (hl : Linked hm.size hm.Free ((hashWord hash k).toNat % hm.size) i)
    (hroom : hm.numStoredKeys < hm.numKeysToExpand) (haddr : logSize log < 2 ^ 32) :
    Filed hash log hm (hm.fill i (hashWord hash k) (UInt32.ofNat (logSize log))) k i where
  valid := h.valid.fill hi hf (two_le_hashWord _ _) hl hroom _
  size_eq := rfl
  limit_eq := rfl
  lt_size := hi
  addressable := haddr
  hash_eq := fun j => getHash_fill _ _ _ _ _
  address_eq := fun j => getStoreIndex_fill _ _ _ _ _
  self := fun h2 => absurd hf (not_free_of_two_le h2)
  other := fun j hj _ hj2 r hr heq => by
    have := (h.live j hj hj2 r hr).2
    rw [heq, hk] at this
    cases this

/-- The bucket of a key, pointed at a new record. -/
theorem filed_point (h : hm.Files hash log m) {k v' : Bytes} {i : ℕ} (hi : i < hm.size)
    (hi2 : 2 ≤ hm.getHash i) (hr : hm.target log i = some ⟨k, v'⟩)
    (haddr : logSize log < 2 ^ 32) :
    Filed hash log hm (hm.point i (hashWord hash k) (UInt32.ofNat (logSize log))) k i where
  valid := (h.live i hi hi2 _ hr).1 ▸ h.valid.point i _
  size_eq := rfl
  limit_eq := rfl
  lt_size := hi
  addressable := haddr
  hash_eq := fun j => getHash_point _ _ _ _ _
  address_eq := fun j => getStoreIndex_point _ _ _ _ _
  self := fun _ r hr' => by
    rw [hr] at hr'
    exact congrArg Record.key (Option.some.inj hr').symm
  other := fun j hj hji hj2 r hr' => h.key_ne hi hj hji hi2 hj2 hr hr'

/-- **Marking the bucket of a key deleted** removes its pair. -/
theorem setDeleted (h : hm.Files hash log m) {k v : Bytes} {i : ℕ} (hi : i < hm.size)
    (hi2 : 2 ≤ hm.getHash i) (hr : hm.target log i = some ⟨k, v⟩) :
    (hm.setHash i deletedBucket).Files hash log (Function.update m k none) := by
  have htarget : ∀ j, (hm.setHash i deletedBucket).target log j = hm.target log j := fun j => by
    rw [target, target, getStoreIndex_setHash]
  refine ⟨h.valid.setDeleted hi2, ?_, ?_, ?_, ?_⟩
  · intro j hj hne
    rw [htarget]
    by_cases hji : j = i
    · exact ⟨_, hji ▸ hr⟩
    · rw [Free, getHash_setHash, if_neg hji] at hne
      exact h.tagged j hj hne
  · intro j hj hj2 r hr'
    obtain ⟨hji, heq⟩ := live_setDeleted hj2
    rw [htarget] at hr'
    rw [heq] at hj2 ⊢
    rw [Function.update_of_ne (h.key_ne hi hj hji hi2 hj2 hr hr')]
    exact h.live j hj hj2 r hr'
  · intro k' v' hk'
    have hkk : k' ≠ k := fun h0 => by
      rw [h0, Function.update_self] at hk'
      cases hk'
    rw [Function.update_of_ne hkk] at hk'
    obtain ⟨j, hj, hj2, hr'⟩ := h.mem k' v' hk'
    have hji : j ≠ i := fun h0 => by
      rw [h0, hr] at hr'
      exact hkk (congrArg Record.key (Option.some.inj hr')).symm
    exact ⟨j, hj, by rw [getHash_setHash, if_neg hji]; exact hj2, by rw [htarget, hr']⟩
  · intro j hj l hl hj2 hl2 r r' hr hr'
    rw [(live_setDeleted hj2).2] at hj2
    rw [(live_setDeleted hl2).2] at hl2
    rw [htarget] at hr hr'
    exact h.unique j hj l hl hj2 hl2 r r' hr hr'

/-- **Doubling the array** changes nothing. -/
theorem rehashed (h : hm.Files hash log m) {N : HashMap} (hN : Rehashed hm hm.size N) :
    N.Files hash log m := by
  have htarget : ∀ {i j : ℕ}, hm.getStoreIndex i = N.getStoreIndex j →
      N.target log j = hm.target log i := fun h => by rw [target, target, h]
  refine ⟨(hN.valid h.valid).1, ?_, ?_, ?_, ?_⟩
  · intro j hj hne
    obtain ⟨i, hi, hi2, -, his⟩ := hN.exists_old hj (hN.live j hj hne)
    rw [htarget his]
    exact h.tagged i hi (not_free_of_two_le hi2)
  · intro j hj hj2 r hr
    obtain ⟨i, hi, hi2, hih, his⟩ := hN.exists_old hj hj2
    rw [htarget his] at hr
    rw [← hih]
    exact h.live i hi hi2 r hr
  · intro k v hk
    obtain ⟨i, hi, hi2, hr⟩ := h.mem k v hk
    obtain ⟨j, hj, -, hjh, hjs⟩ := (hN.entry_iff _ _).mpr ⟨i, hi, hi2, rfl, rfl⟩
    exact ⟨j, hj, by rw [hjh]; exact hi2, by rw [htarget hjs.symm, hr]⟩
  · intro j hj l hl hj2 hl2 r r' hr hr' heq
    obtain ⟨i, hi, hi2, -, his⟩ := hN.exists_old hj hj2
    obtain ⟨i', hi', hi2', -, his'⟩ := hN.exists_old hl hl2
    rw [htarget his] at hr
    rw [htarget his'] at hr'
    obtain rfl := h.unique i hi i' hi' hi2 hi2' r r' hr hr' heq
    exact hN.distinct le_rfl h.distinct j hj l hl hj2 hl2 (his.symm.trans his')

/-- The check for space changes nothing. -/
theorem spaced (h : hm.Files hash log m) {hm' : HashMap} (hs : Spaced hm hm') :
    hm'.Files hash log m := by
  rcases hs with ⟨-, rfl⟩ | ⟨-, -, hN⟩
  · exact h
  · exact h.rehashed hN

end Files

/-- The array indexes what it files, if the records are the last of their keys, with a timestamp. -/
theorem Files.indexes (h : hm.Files hash log m) (hlimit : hm.sizeLimit = defaultHashMapSizeLimit)
    (hle : hm.size ≤ hm.sizeLimit) (hstamp : ∀ k v, m k = some v → 8 ≤ v.length)
    (hlatest : ∀ i < hm.size, 2 ≤ hm.getHash i → ∀ r, hm.target log i = some r →
      ∀ off r', recordAt log off = some r' → r'.key = r.key → off ≤ (hm.getStoreIndex i).toNat) :
    hm.Indexes hash log m :=
  ⟨h.valid, hlimit, hle, h.tagged, fun i hi hi2 r hr =>
    ⟨(h.live i hi hi2 r hr).1, (h.live i hi hi2 r hr).2, hstamp _ _ (h.live i hi hi2 r hr).2⟩,
    h.mem, h.unique, hlatest⟩

namespace Indexes

theorem stamped (h : hm.Indexes hash log m) (k v : Bytes) (hk : m k = some v) : 8 ≤ v.length := by
  obtain ⟨i, hi, hi2, hr⟩ := h.mem k v hk
  exact (h.live i hi hi2 _ hr).2.2

/-- **Filing the pair of a key** adds it, or replaces the one the key has. -/
theorem file (h : hm.Indexes hash log m) {hm' : HashMap} {k v : Bytes} {i : ℕ}
    (hf : Filed hash log hm hm' k i) (hv : 8 ≤ v.length) :
    hm'.Indexes hash (log ++ [⟨k, v⟩]) (Function.update m k (some v)) := by
  refine (h.files.file hf v).indexes (hf.limit_eq.trans h.limit_eq)
    (by rw [hf.size_eq, hf.limit_eq]; exact h.size_le) (fun k' v' hk' => ?_) ?_
  · by_cases hkk : k' = k
    · rw [hkk, Function.update_self] at hk'
      exact Option.some.inj hk' ▸ hv
    · rw [Function.update_of_ne hkk] at hk'
      exact h.stamped k' v' hk'
  · intro j hj hj2 r hr off r' hoff heq
    rcases hf.live_cases h.files hj hj2 hr with ⟨rfl, rfl⟩ | ⟨hji, hj, hj2, hr, hrk⟩
    · exact hf.latest hoff
    · rw [hf.address_eq, if_neg hji]
      rcases recordAt_append_singleton hoff with hoff | ⟨-, rfl⟩
      · exact h.latest j hj hj2 r hr off r' hoff heq
      · exact absurd heq.symm hrk

/-- **Filling an empty bucket for an absent key** adds its pair. -/
theorem fill (h : hm.Indexes hash log m) {k v : Bytes} (hv : 8 ≤ v.length) (hk : m k = none)
    {i : ℕ} (hi : i < hm.size) (hf : hm.Free i)
    (hl : Linked hm.size hm.Free ((hashWord hash k).toNat % hm.size) i)
    (hroom : hm.numStoredKeys < hm.numKeysToExpand) (haddr : logSize log < 2 ^ 32) :
    (hm.fill i (hashWord hash k) (UInt32.ofNat (logSize log))).Indexes hash (log ++ [⟨k, v⟩])
      (Function.update m k (some v)) :=
  h.file (h.files.filed_fill hk hi hf hl hroom haddr) hv

/-- **Pointing the bucket of a key at a new record** replaces its pair. -/
theorem point (h : hm.Indexes hash log m) {k v v' : Bytes} (hv : 8 ≤ v.length) {i : ℕ}
    (hi : i < hm.size) (hi2 : 2 ≤ hm.getHash i) (hr : hm.target log i = some ⟨k, v'⟩)
    (haddr : logSize log < 2 ^ 32) :
    (hm.point i (hashWord hash k) (UInt32.ofNat (logSize log))).Indexes hash (log ++ [⟨k, v⟩])
      (Function.update m k (some v)) :=
  h.file (h.files.filed_point hi hi2 hr haddr) hv

/-- **Marking the bucket of a key deleted** removes its pair. -/
theorem setDeleted (h : hm.Indexes hash log m) {k v : Bytes} {i : ℕ} (hi : i < hm.size)
    (hi2 : 2 ≤ hm.getHash i) (hr : hm.target log i = some ⟨k, v⟩) :
    (hm.setHash i deletedBucket).Indexes hash log (Function.update m k none) := by
  refine (h.files.setDeleted hi hi2 hr).indexes h.limit_eq h.size_le (fun k' v' hk' => ?_) ?_
  · by_cases hkk : k' = k
    · rw [hkk, Function.update_self] at hk'
      cases hk'
    · rw [Function.update_of_ne hkk] at hk'
      exact h.stamped k' v' hk'
  · intro j hj hj2 r hr'
    rw [(live_setDeleted hj2).2] at hj2
    rw [target, getStoreIndex_setHash] at hr'
    rw [getStoreIndex_setHash]
    exact h.latest j hj hj2 r hr'

/-- **A tombstone behind the log**, for a key that has no pair, changes nothing. -/
theorem tombstone (h : hm.Indexes hash log m) {k : Bytes} (hk : m k = none) (v : Bytes) :
    hm.Indexes hash (log ++ [⟨k, v⟩]) m := by
  refine (h.files.append _).indexes h.limit_eq h.size_le h.stamped ?_
  intro j hj hj2 r hr off r' hoff heq
  rw [h.files.target_append hj (not_free_of_two_le hj2)] at hr
  rcases recordAt_append_singleton hoff with hoff | ⟨-, rfl⟩
  · exact h.latest j hj hj2 r hr off r' hoff heq
  · have := (h.live j hj hj2 r hr).2.1
    rw [← heq, hk] at this
    cases this

/-- **Doubling the array** changes nothing. -/
theorem rehashed (h : hm.Indexes hash log m) {N : HashMap} (hN : Rehashed hm hm.size N)
    (hle : hm.size * 2 ≤ hm.sizeLimit) : N.Indexes hash log m := by
  refine (h.files.rehashed hN).indexes (hN.limit_eq.trans h.limit_eq) ?_ h.stamped ?_
  · rw [hN.size_eq' h.valid.toShaped, hN.limit_eq]
    omega
  · intro j hj hj2 r hr
    obtain ⟨i, hi, hi2, -, his⟩ := hN.exists_old hj hj2
    rw [target, ← his] at hr
    rw [← his]
    exact h.latest i hi hi2 r hr

end Indexes

end HashMap

end Treeless
