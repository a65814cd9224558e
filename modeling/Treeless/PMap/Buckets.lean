import Treeless.PMap.HashMap
import Mathlib.Data.Finset.Card
import Mathlib.Data.Nat.Bitwise

/-!
# PMap/Buckets — the bucket array as a linear-probing table

`HashMap.Valid` says what every operation keeps: the meta-data describe a power of two, the count of
stored keys is the number of non-empty buckets and stays under seven tenths, and every live bucket
is linked to the bucket its hash word names.  Filling the empty bucket a search ended at, pointing
a live bucket elsewhere, marking one deleted and doubling the array keep it; doubling keeps exactly
the live entries (`entry_expand`).
-/

namespace Treeless

namespace HashMap

variable (m : HashMap)

/-! ## The two words of a bucket -/

@[simp] theorem getHash_setHash (i j : ℕ) (h : UInt32) :
    (m.setHash i h).getHash j = if j = i then h else m.getHash j := by
  simp only [getHash, setHash]
  exact if_congr (by omega) rfl rfl

@[simp] theorem getStoreIndex_setHash (i j : ℕ) (h : UInt32) :
    (m.setHash i h).getStoreIndex j = m.getStoreIndex j := by
  simp only [getStoreIndex, setHash]
  rw [if_neg (by omega)]

@[simp] theorem getHash_point (i j : ℕ) (h s : UInt32) :
    (m.point i h s).getHash j = if j = i then h else m.getHash j := by
  rw [← getHash_setHash]
  simp only [point, getHash, setStoreIndex]
  rw [if_neg (by omega)]

@[simp] theorem getStoreIndex_point (i j : ℕ) (h s : UInt32) :
    (m.point i h s).getStoreIndex j = if j = i then s else m.getStoreIndex j := by
  simp only [point, getStoreIndex, setStoreIndex, setHash]
  by_cases hij : j = i
  · rw [if_pos (by omega), if_pos hij]
  · rw [if_neg (by omega), if_neg hij, if_neg (by omega)]

@[simp] theorem getHash_fill (i j : ℕ) (h s : UInt32) :
    (m.fill i h s).getHash j = if j = i then h else m.getHash j := m.getHash_point i j h s

@[simp] theorem getStoreIndex_fill (i j : ℕ) (h s : UInt32) :
    (m.fill i h s).getStoreIndex j = if j = i then s else m.getStoreIndex j :=
  m.getStoreIndex_point i j h s

/-! ## The shape of the array -/

/-- The meta-data describe an array of a power of two buckets. -/
structure Shaped : Prop where
  size_eq : m.size = 2 ^ m.sizelog2
  mask_eq : m.sizeMask = m.size - 1
  full_eq : m.numKeysToExpand = m.size * 7 / 10

/-- The mask of a power of two, built bit by bit. -/
theorem foldl_or_shiftLeft : ∀ n : ℕ,
    (List.range n).foldl (fun mask i => mask ||| 1 <<< i) 0 = 2 ^ n - 1
  | 0 => rfl
  | n + 1 => by
      have hpos : 0 < 2 ^ n := Nat.two_pow_pos n
      rw [List.range_succ, List.foldl_append, foldl_or_shiftLeft n]
      simp only [List.foldl_cons, List.foldl_nil, Nat.one_shiftLeft]
      have hor := Nat.two_pow_add_eq_or_of_lt (Nat.sub_lt hpos Nat.one_pos) 1
      rw [Nat.mul_one] at hor
      rw [Nat.lor_comm, ← hor]
      omega

theorem shaped_newHashMap (log2 limit : ℕ) : (newHashMap log2 limit).Shaped where
  size_eq := Nat.one_shiftLeft log2
  mask_eq := by
    change (List.range log2).foldl _ 0 = 1 <<< log2 - 1
    rw [foldl_or_shiftLeft, Nat.one_shiftLeft]
  full_eq := rfl

variable {m}

theorem Shaped.size_pos (h : m.Shaped) : 0 < m.size := h.size_eq ▸ Nat.two_pow_pos _

/-- Masking is the remainder by the size. -/
theorem Shaped.and_mask (h : m.Shaped) (x : ℕ) : x &&& m.sizeMask = x % m.size := by
  rw [h.mask_eq, h.size_eq, Nat.and_two_pow_sub_one_eq_mod]

/-- A bucket never used. -/
def Free (m : HashMap) (i : ℕ) : Prop := m.getHash i = emptyBucket

instance (m : HashMap) : DecidablePred m.Free := fun i =>
  inferInstanceAs (Decidable (m.getHash i = emptyBucket))

/-- The number of buckets in use, deleted ones included. -/
def used (m : HashMap) : ℕ := ((Finset.range m.size).filter fun i => ¬ m.Free i).card

/-- The number of live buckets. -/
def liveCount (m : HashMap) : ℕ := ((Finset.range m.size).filter fun i => 2 ≤ m.getHash i).card

/-- A live bucket holds the hash word `h` and the store address `s`. -/
def Entry (m : HashMap) (h s : UInt32) : Prop :=
  ∃ i < m.size, 2 ≤ h ∧ m.getHash i = h ∧ m.getStoreIndex i = s

theorem not_free_of_two_le {i : ℕ} (h : 2 ≤ m.getHash i) : ¬ m.Free i := fun h0 => by
  rw [Free] at h0
  rw [h0] at h
  exact absurd h (by decide)

theorem liveCount_le_used : m.liveCount ≤ m.used :=
  Finset.card_le_card (Finset.monotone_filter_right _ fun _ _ h => not_free_of_two_le h)

/-- **An array that is not full has an empty bucket.** -/
theorem exists_free (h : m.used < m.size) : ∃ i < m.size, m.Free i := by
  by_contra hno
  have hall : ((Finset.range m.size).filter fun i => ¬ m.Free i) = Finset.range m.size :=
    Finset.filter_true_of_mem fun i hi hf => hno ⟨i, Finset.mem_range.mp hi, hf⟩
  rw [used, hall, Finset.card_range] at h
  exact lt_irrefl _ h

/-- **The placing loop is a seek for an empty bucket.** -/
theorem place_eq (hm : m.Shaped) (h s : UInt32) : ∀ fuel i : ℕ, m.place h s fuel i
    = match seek m.size m.Free fuel i with
      | some j => .ok (m.fill j h s)
      | none => .error .endless
  | 0, _ => rfl
  | fuel + 1, i => by
      rw [place, seek]
      by_cases hf : m.getHash i = emptyBucket
      · rw [if_pos hf, if_pos (show m.Free i from hf)]
      · rw [if_neg hf, if_neg (show ¬ m.Free i from hf), hm.and_mask, place_eq hm h s fuel]

/-! ## What an operation keeps -/

/-- Every live bucket is linked to the bucket its hash word names. -/
def Probed (m : HashMap) : Prop :=
  ∀ i < m.size, 2 ≤ m.getHash i → Linked m.size m.Free ((m.getHash i).toNat % m.size) i

/-- Live buckets hold distinct store addresses. -/
def Distinct (m : HashMap) : Prop :=
  ∀ i < m.size, ∀ j < m.size, 2 ≤ m.getHash i → 2 ≤ m.getHash j →
    m.getStoreIndex i = m.getStoreIndex j → i = j

/-- The invariant of the bucket array. -/
structure Valid (m : HashMap) : Prop extends m.Shaped where
  stored_eq : m.numStoredKeys = m.used
  load : m.numStoredKeys ≤ m.numKeysToExpand
  probed : m.Probed

theorem Valid.used_lt_size (h : m.Valid) : m.used < m.size := by
  have h1 := h.load
  rw [h.stored_eq, h.full_eq] at h1
  have h2 := h.size_pos
  omega

theorem used_fill {i : ℕ} (hi : i < m.size) (hf : m.Free i) {h : UInt32} (hh : 2 ≤ h) (s : UInt32) :
    (m.fill i h s).used = m.used + 1 := by
  have hset : ((Finset.range m.size).filter fun j => ¬ (m.fill i h s).Free j)
      = insert i ((Finset.range m.size).filter fun j => ¬ m.Free j) := by
    ext j
    have hne : h ≠ emptyBucket := fun h0 => absurd (h0 ▸ hh) (by decide)
    rw [Finset.mem_insert, Finset.mem_filter, Finset.mem_filter, Free, getHash_fill]
    by_cases hj : j = i
    · simp [hj, hi, hne]
    · simp [hj, Free]
  change ((Finset.range m.size).filter fun j => ¬ (m.fill i h s).Free j).card = _
  rw [hset, Finset.card_insert_of_notMem (by simp [hf])]
  rfl

/-- A link survives the filling of a bucket. -/
theorem Probed.fill (hp : m.Probed) {i : ℕ} {h : UInt32} (hh : 2 ≤ h)
    (hl : Linked m.size m.Free (h.toNat % m.size) i) (s : UInt32) : (m.fill i h s).Probed := by
  have hsub : ∀ x, (m.fill i h s).Free x → m.Free x := fun x hx => by
    rw [Free, getHash_fill] at hx
    split at hx
    · exact absurd (hx ▸ hh) (by decide)
    · exact hx
  intro j hj hlive
  rw [getHash_fill] at hlive ⊢
  split at hlive
  · next hji =>
    rw [if_pos hji, hji]
    exact hl.mono hsub
  · next hji =>
    rw [if_neg hji]
    exact (hp j hj hlive).mono hsub

/-- A filled bucket is one more live entry. -/
theorem entry_fill {i : ℕ} (hi : i < m.size) (hf : m.Free i) {h₀ s₀ : UInt32} (hh : 2 ≤ h₀)
    (h s : UInt32) : (m.fill i h₀ s₀).Entry h s ↔ m.Entry h s ∨ (h = h₀ ∧ s = s₀) := by
  constructor
  · rintro ⟨j, hj, h2, hjh, hjs⟩
    rw [getHash_fill] at hjh
    rw [getStoreIndex_fill] at hjs
    by_cases hji : j = i
    · rw [if_pos hji] at hjh hjs
      exact Or.inr ⟨hjh.symm, hjs.symm⟩
    · rw [if_neg hji] at hjh hjs
      exact Or.inl ⟨j, hj, h2, hjh, hjs⟩
  · rintro (⟨j, hj, h2, hjh, hjs⟩ | ⟨rfl, rfl⟩)
    · have hji : j ≠ i := fun h0 => not_free_of_two_le (hjh.symm ▸ h2) (h0 ▸ hf)
      exact ⟨j, hj, h2, by rw [getHash_fill, if_neg hji, hjh],
        by rw [getStoreIndex_fill, if_neg hji, hjs]⟩
    · exact ⟨i, hi, hh, by rw [getHash_fill, if_pos rfl], by rw [getStoreIndex_fill, if_pos rfl]⟩

/-- A filled bucket with a new address keeps addresses distinct. -/
theorem Distinct.fill (hd : m.Distinct) {i : ℕ} {h₀ s₀ : UInt32} (hnew : ∀ h, ¬ m.Entry h s₀) :
    (m.fill i h₀ s₀).Distinct := by
  intro j hj k hk hj2 hk2 heq
  rw [getHash_fill] at hj2 hk2
  rw [getStoreIndex_fill, getStoreIndex_fill] at heq
  by_cases hji : j = i <;> by_cases hki : k = i
  · rw [hji, hki]
  · rw [if_pos hji, if_neg hki] at heq
    rw [if_neg hki] at hk2
    exact absurd ⟨k, hk, hk2, rfl, heq.symm⟩ (hnew _)
  · rw [if_neg hji, if_pos hki] at heq
    rw [if_neg hji] at hj2
    exact absurd ⟨j, hj, hj2, rfl, heq⟩ (hnew _)
  · rw [if_neg hji, if_neg hki] at heq
    rw [if_neg hji] at hj2
    rw [if_neg hki] at hk2
    exact hd j hj k hk hj2 hk2 heq

/-- **Filling the empty bucket a seek ended at keeps the invariant**, below the load limit. -/
theorem Valid.fill (hm : m.Valid) {i : ℕ} (hi : i < m.size) (hf : m.Free i) {h : UInt32}
    (hh : 2 ≤ h) (hl : Linked m.size m.Free (h.toNat % m.size) i)
    (hroom : m.numStoredKeys < m.numKeysToExpand) (s : UInt32) : (m.fill i h s).Valid where
  size_eq := hm.size_eq
  mask_eq := hm.mask_eq
  full_eq := hm.full_eq
  stored_eq := by
    rw [used_fill hi hf hh]
    exact congrArg (· + 1) hm.stored_eq
  load := hroom
  probed := hm.probed.fill hh hl s

/-- The number of buckets in use depends only on which are empty. -/
theorem used_congr {m m' : HashMap} (hs : m'.size = m.size) (h : ∀ i, m'.Free i ↔ m.Free i) :
    m'.used = m.used := by
  rw [used, used, hs]
  exact congrArg Finset.card (Finset.filter_congr fun i _ => not_congr (h i))

/-- Rewriting buckets in use keeps the invariant, if live ones keep their hash words. -/
theorem Valid.rewrite {m m' : HashMap} (hm : m.Valid) (hshape : m'.Shaped) (hs : m'.size = m.size)
    (hstored : m'.numStoredKeys = m.numStoredKeys) (hfree : ∀ i, m'.Free i ↔ m.Free i)
    (hlive : ∀ i < m.size, 2 ≤ m'.getHash i → m'.getHash i = m.getHash i) : m'.Valid where
  size_eq := hshape.size_eq
  mask_eq := hshape.mask_eq
  full_eq := hshape.full_eq
  stored_eq := by rw [hstored, hm.stored_eq, used_congr hs hfree]
  load := by rw [hstored, hshape.full_eq, hs, ← hm.full_eq]; exact hm.load
  probed := fun i hi h2 => by
    rw [hs] at hi ⊢
    have heq := hlive i hi h2
    rw [heq]
    exact (hm.probed i hi (heq ▸ h2)).mono fun x hx => (hfree x).mp hx

/-- **Pointing a live bucket at another address keeps the invariant.** -/
theorem Valid.point (hm : m.Valid) (i : ℕ) (s : UInt32) :
    (m.point i (m.getHash i) s).Valid := by
  have hsame : ∀ j, (m.point i (m.getHash i) s).getHash j = m.getHash j := fun j => by
    rw [getHash_point]
    split
    · next hji => rw [hji]
    · rfl
  refine hm.rewrite ⟨hm.size_eq, hm.mask_eq, hm.full_eq⟩ rfl rfl (fun j => ?_) fun j _ _ => hsame j
  rw [Free, Free, hsame]

/-- **Marking a live bucket deleted keeps the invariant.** -/
theorem Valid.setDeleted (hm : m.Valid) {i : ℕ} (hi : 2 ≤ m.getHash i) :
    (m.setHash i deletedBucket).Valid := by
  refine hm.rewrite ⟨hm.size_eq, hm.mask_eq, hm.full_eq⟩ rfl rfl (fun j => ?_) fun j _ h2 => ?_
  · rw [Free, Free, getHash_setHash]
    split
    · next hji =>
      rw [hji]
      exact iff_of_false (by decide) (not_free_of_two_le hi)
    · rfl
  · rw [getHash_setHash] at h2 ⊢
    split at h2
    · exact absurd h2 (by decide)
    · next hji => rw [if_neg hji]

/-! ## A new array -/

theorem free_newHashMap (log2 limit j : ℕ) : (newHashMap log2 limit).Free j := rfl

theorem not_live_newHashMap (log2 limit j : ℕ) : ¬ 2 ≤ (newHashMap log2 limit).getHash j := fun h =>
  not_free_of_two_le h (free_newHashMap log2 limit j)

theorem used_newHashMap (log2 limit : ℕ) : (newHashMap log2 limit).used = 0 :=
  Finset.card_eq_zero.mpr
    (Finset.filter_eq_empty_iff.mpr fun j _ h => h (free_newHashMap log2 limit j))

theorem valid_newHashMap (log2 limit : ℕ) : (newHashMap log2 limit).Valid :=
  ⟨shaped_newHashMap log2 limit, (used_newHashMap log2 limit).symm, Nat.zero_le _,
    fun j _ h => absurd h (not_live_newHashMap log2 limit j)⟩

/-! ## Doubling the array -/

/-- The new array `N` after the first `i` buckets of `m` have been put into it. -/
structure Rehashed (m : HashMap) (i : ℕ) (N : HashMap) : Prop extends N.Shaped where
  log2_eq : N.sizelog2 = m.sizelog2 + 1
  limit_eq : N.sizeLimit = m.sizeLimit
  stored_eq : N.numStoredKeys = N.used
  used_eq : N.used = ((Finset.range i).filter fun j => 2 ≤ m.getHash j).card
  live : ∀ j < N.size, ¬ N.Free j → 2 ≤ N.getHash j
  probed : N.Probed
  entries : ∀ h s, N.Entry h s ↔ ∃ j < i, 2 ≤ h ∧ m.getHash j = h ∧ m.getStoreIndex j = s
  distinct : i ≤ m.size → m.Distinct → N.Distinct

theorem rehashed_zero (m : HashMap) :
    Rehashed m 0 (newHashMap (m.sizelog2 + 1) m.sizeLimit) := by
  refine ⟨shaped_newHashMap _ _, rfl, rfl, (used_newHashMap _ _).symm,
    by rw [used_newHashMap]; rfl, fun j _ h => absurd (free_newHashMap _ _ j) h,
    fun j _ h => absurd h (not_live_newHashMap _ _ j), fun h s => ?_,
    fun _ _ j _ _ _ h => absurd h (not_live_newHashMap _ _ j)⟩
  constructor
  · rintro ⟨j, -, h2, hj, -⟩
    exact absurd (hj ▸ h2) (not_live_newHashMap _ _ j)
  · rintro ⟨j, hj, -⟩
    exact absurd hj (Nat.not_lt_zero j)

theorem Rehashed.size_eq' {i : ℕ} {N : HashMap} (hm : m.Shaped) (hN : Rehashed m i N) :
    N.size = 2 * m.size := by
  rw [hN.size_eq, hN.log2_eq, hm.size_eq, pow_succ, Nat.mul_comm]

theorem two_le_iff_gt_deleted (h : UInt32) : h > deletedBucket ↔ 2 ≤ h := by
  rw [gt_iff_lt, UInt32.lt_iff_toNat_lt, UInt32.le_iff_toNat_le]
  exact Iff.rfl

/-- A live bucket, put into the first empty one from its home on. -/
theorem Rehashed.fill {i j : ℕ} {N : HashMap} (hN : Rehashed m i N) (hi : i < m.size)
    (h2 : 2 ≤ m.getHash i) (hj : j < N.size) (hfree : N.Free j)
    (hlink : Linked N.size N.Free ((m.getHash i).toNat % N.size) j) :
    Rehashed m (i + 1) (N.fill j (m.getHash i) (m.getStoreIndex i)) := by
  refine ⟨⟨hN.size_eq, hN.mask_eq, hN.full_eq⟩, hN.log2_eq, hN.limit_eq, ?_, ?_, ?_,
    hN.probed.fill h2 hlink _, fun h s => ?_, fun hle hd => (hN.distinct (by omega) hd).fill ?_⟩
  · rw [used_fill hj hfree h2]
    exact congrArg (· + 1) hN.stored_eq
  · rw [used_fill hj hfree h2, Finset.range_add_one, Finset.filter_insert, if_pos h2,
      Finset.card_insert_of_notMem (by simp), hN.used_eq]
  · intro k hk hne
    rw [getHash_fill]
    split
    · exact h2
    · next hkj =>
      refine hN.live k hk fun h => hne ?_
      rw [Free, getHash_fill, if_neg hkj]
      exact h
  · rw [entry_fill hj hfree h2, hN.entries, Nat.exists_lt_succ_right]
    refine or_congr_right ⟨?_, fun ⟨_, hh, hs⟩ => ⟨hh.symm, hs.symm⟩⟩
    rintro ⟨rfl, rfl⟩
    exact ⟨h2, rfl, rfl⟩
  · -- the address is not there yet: it would come from an earlier bucket
    intro h hent
    obtain ⟨l, hl, hh, hlh, hls⟩ := (hN.entries h _).mp hent
    have := hd l (by omega) i hi (hlh.symm ▸ hh) h2 hls
    omega

/-- A bucket that is not live is left behind. -/
theorem Rehashed.skip {i : ℕ} {N : HashMap} (hN : Rehashed m i N) (h2 : ¬ 2 ≤ m.getHash i) :
    Rehashed m (i + 1) N := by
  refine ⟨hN.toShaped, hN.log2_eq, hN.limit_eq, hN.stored_eq, ?_, hN.live, hN.probed,
    fun h s => ?_, fun hle => hN.distinct (by omega)⟩
  · rw [Finset.range_add_one, Finset.filter_insert, if_neg h2, hN.used_eq]
  · rw [hN.entries, Nat.exists_lt_succ_right]
    refine (or_iff_left ?_).symm
    rintro ⟨hh, rfl, -⟩
    exact h2 hh

/-- **One turn of the copying loop** puts the bucket into the new array, if it is live. -/
theorem rehash_spec (hm : m.Shaped) {i : ℕ} (hi : i < m.size) {N : HashMap}
    (hN : Rehashed m i N) : ∃ N', m.rehash N i = .ok N' ∧ Rehashed m (i + 1) N' := by
  have hsz := hN.size_eq' hm
  rw [rehash]
  by_cases h2 : 2 ≤ m.getHash i
  · rw [if_pos ((two_le_iff_gt_deleted _).mpr h2), place_eq hN.toShaped, hN.and_mask]
    have hhome : (m.getHash i).toNat % N.size < N.size := Nat.mod_lt _ hN.size_pos
    have hroom : N.used < N.size := by
      have := Finset.card_filter_le (Finset.range i) fun j => 2 ≤ m.getHash j
      rw [← hN.used_eq, Finset.card_range] at this
      omega
    obtain ⟨f, hf, hfree⟩ := exists_free hroom
    obtain ⟨j, hj⟩ := exists_seek hhome hf hfree
    rw [hj]
    exact ⟨_, rfl, hN.fill hi h2 (seek_lt hhome hj) (stop_of_seek hhome hj)
      (linked_of_seek hhome (fun _ h => h) hj)⟩
  · rw [if_neg fun h => h2 ((two_le_iff_gt_deleted _).mp h)]
    exact ⟨N, rfl, hN.skip h2⟩

/-- **The copying loop** puts every live bucket into the new array. -/
theorem foldlM_rehash (hm : m.Shaped) : ∀ i ≤ m.size,
    ∃ N, (List.range i).foldlM m.rehash (newHashMap (m.sizelog2 + 1) m.sizeLimit) = .ok N
      ∧ Rehashed m i N
  | 0, _ => ⟨_, rfl, rehashed_zero m⟩
  | i + 1, hi => by
      obtain ⟨N, hfold, hN⟩ := foldlM_rehash hm i (by omega)
      obtain ⟨N', hstep, hN'⟩ := rehash_spec hm (by omega) hN
      refine ⟨N', ?_, hN'⟩
      rw [List.range_succ, List.foldlM_append, hfold, Call.ok_bind]
      simp only [List.foldlM_cons, List.foldlM_nil, hstep, Call.ok_bind, Call.pure_eq]

/-- **What `expand` does**: below the limit it returns the array of twice the size, with exactly the
live entries of the old one. -/
theorem expand_eq (hm : m.Shaped) :
    (m.sizeLimit < m.size * 2 ∧ m.expand = .ok (.error .hashMapLimit))
    ∨ (m.size * 2 ≤ m.sizeLimit ∧ ∃ N, m.expand = .ok (.ok N) ∧ Rehashed m m.size N) := by
  rw [expand]
  by_cases h : m.size * 2 > m.sizeLimit
  · exact Or.inl ⟨h, by rw [if_pos h]⟩
  · obtain ⟨N, hfold, hN⟩ := foldlM_rehash hm m.size le_rfl
    refine Or.inr ⟨by omega, N, ?_, hN⟩
    rw [if_neg h, hfold]
    rfl

/-- The copy of an array has its entries. -/
theorem Rehashed.entry_iff {N : HashMap} (hN : Rehashed m m.size N) (h s : UInt32) :
    N.Entry h s ↔ m.Entry h s := hN.entries h s

theorem Rehashed.liveCount_eq {N : HashMap} (hN : Rehashed m m.size N) :
    N.numStoredKeys = m.liveCount := hN.stored_eq.trans hN.used_eq

/-- **Doubling keeps the invariant**, and leaves room for a key. -/
theorem Rehashed.valid (hm : m.Valid) {N : HashMap} (hN : Rehashed m m.size N) :
    N.Valid ∧ N.numStoredKeys < N.numKeysToExpand := by
  have hlt : N.numStoredKeys < N.numKeysToExpand := by
    have h1 := hm.load
    have h2 := liveCount_le_used (m := m)
    have h3 := hm.size_pos
    rw [hm.stored_eq, hm.full_eq] at h1
    rw [hN.liveCount_eq, hN.full_eq, hN.size_eq' hm.toShaped]
    rcases Nat.lt_or_ge m.size 2 with h4 | h4 <;> omega
  exact ⟨⟨hN.toShaped, hN.stored_eq, hlt.le, hN.probed⟩, hlt⟩

/-! ## The check for space -/

/-- The array is full, and may not grow. -/
def full (m : HashMap) : Bool :=
  decide (m.numKeysToExpand ≤ m.numStoredKeys ∧ m.sizeLimit < m.size * 2)

/-- The array as it is if there was room for a key, or the doubled one. -/
def Spaced (m N : HashMap) : Prop :=
  (m.numStoredKeys < m.numKeysToExpand ∧ N = m)
    ∨ (m.numKeysToExpand ≤ m.numStoredKeys ∧ m.size * 2 ≤ m.sizeLimit ∧ Rehashed m m.size N)

theorem Spaced.room (hm : m.Valid) {N : HashMap} (hN : Spaced m N) :
    N.numStoredKeys < N.numKeysToExpand := by
  rcases hN with ⟨hlt, rfl⟩ | ⟨-, -, hN⟩
  · exact hlt
  · exact (hN.valid hm).2

/-- **The check for space** meets the size limit, or leaves room for a key. -/
theorem checkSpace_eq (hm : m.Shaped) :
    (m.full = true ∧ m.checkSpace = .ok (.error .hashMapLimit))
      ∨ (m.full = false ∧ ∃ N, m.checkSpace = .ok (.ok N) ∧ Spaced m N) := by
  rw [checkSpace, full]
  by_cases hfull : m.numStoredKeys ≥ m.numKeysToExpand
  · rw [if_pos hfull]
    rcases expand_eq hm with ⟨hlim, he⟩ | ⟨hle, N, he, hN⟩
    · exact Or.inl ⟨decide_eq_true ⟨hfull, hlim⟩, he⟩
    · exact Or.inr ⟨decide_eq_false fun h => by omega, N, he, Or.inr ⟨hfull, hle, hN⟩⟩
  · rw [if_neg hfull]
    exact Or.inr ⟨decide_eq_false fun h => hfull h.1, m, rfl, Or.inl ⟨by omega, rfl⟩⟩

end HashMap

end Treeless
