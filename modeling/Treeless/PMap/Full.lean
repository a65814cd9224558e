import Treeless.PMap.Converge
import Treeless.PMap.Replay
import Treeless.PMap.Timestamps

/-!
# PMap/Full — a hash map at its size limit

The bucket array is doubled up to `2 ^ 26` buckets, and takes as many keys as seven tenths of them:
46976204.  Then every `Set` is refused (`Reached.set_full`), of a key that is present too, however
much room the store has.  `Set`s of small pairs lead there in a store of 4 GiB (`exists_full`).
-/

namespace Treeless

/-! ## Keys with a hash word that is not reserved -/

theorem fnv1a64_append (bs : Bytes) (b : UInt8) :
    fnv1a64 (bs ++ [b]) = (fnv1a64 bs ^^^ b.toUInt64) * prime64 := by
  rw [fnv1a64, List.foldl_append]
  rfl

/-- **The last byte of a key decides its hash word**, with what is before it: the prime is odd. -/
theorem word_append_injective (bs : Bytes) {b b' : UInt8}
    (h : (fnv1a64 (bs ++ [b])).toUInt32 = (fnv1a64 (bs ++ [b'])).toUInt32) : b = b' := by
  rw [fnv1a64_append, fnv1a64_append, UInt64.toUInt32_mul, UInt64.toUInt32_mul] at h
  have hinv : prime64.toUInt32 * 2952172923 = 1 := by decide
  have hcancel := congrArg (· * (2952172923 : UInt32)) h
  simp only [UInt32.mul_assoc, hinv, UInt32.mul_one, UInt64.toUInt32_xor, UInt32.xor_right_inj]
    at hcancel
  have hnat := congrArg UInt32.toNat hcancel
  rw [UInt64.toNat_toUInt32, UInt64.toNat_toUInt32, UInt8.toNat_toUInt64,
    UInt8.toNat_toUInt64] at hnat
  have hb := b.toNat_lt
  have hb' := b'.toNat_lt
  exact UInt8.toNat_inj.mp (by omega)

/-- Every key has a continuation by one byte whose hash word is not reserved. -/
theorem exists_word (bs : Bytes) : ∃ b : UInt8, 2 ≤ (fnv1a64 (bs ++ [b])).toUInt32 := by
  by_contra hno
  have hreserved : ∀ b : UInt8, (fnv1a64 (bs ++ [b])).toUInt32 = 0
      ∨ (fnv1a64 (bs ++ [b])).toUInt32 = 1 := fun b =>
    reserved_of_not_two_le fun hb => hno ⟨b, hb⟩
  -- of three bytes, two would share one of the two reserved words
  rcases hreserved 0 with h0 | h0 <;> rcases hreserved 1 with h1 | h1 <;>
    rcases hreserved 2 with h2 | h2
  all_goals first
    | exact absurd (word_append_injective bs (h0.trans h1.symm)) (by decide)
    | exact absurd (word_append_injective bs (h0.trans h2.symm)) (by decide)
    | exact absurd (word_append_injective bs (h1.trans h2.symm)) (by decide)

namespace PMap

/-! ## The limit -/

/-- The number of keys a hash map takes. -/
def keyLimit : ℕ := defaultHashMapSizeLimit * 7 / 10

/-- **A `PMap` has no more keys than its hash map takes.** -/
theorem Denotes.count_le {hash : Bytes → UInt64} {c : PMap} {log : List Record} {m : Dict}
    (h : c.Denotes hash log m) : m.count ≤ keyLimit := by
  have hlive := HashMap.liveCount_le_used (m := c.hm)
  have hload := h.index.valid.load
  have hsize := h.index.size_le
  rw [h.index.limit_eq] at hsize
  rw [h.index.valid.stored_eq, h.index.valid.full_eq] at hload
  rw [← h.index.liveCount_eq, keyLimit]
  omega

/-- A `PMap` in a store that a 32-bit word addresses, built by `Set`s that were all accepted, of
keys whose hash words are not reserved. -/
def Stocked (c : PMap) : Prop := ∃ path size evs, size ≤ 2 ^ 32
  ∧ (∀ ev ∈ evs, ev.1.IsSet ∧ ev.2 = none ∧ 2 ≤ (fnv1a64 ev.1.key).toUInt32)
  ∧ Run (Answered fnv1a64) (new path size) evs c

theorem Stocked.reached {c : PMap} (h : c.Stocked) : c.Reached fnv1a64 := by
  obtain ⟨path, size, evs, hsize, -, hrun⟩ := h
  exact ⟨path, size, evs, hsize, hrun.mono fun h => h.2⟩

theorem stocked_new {size : ℕ} (hsize : size ≤ 2 ^ 32) : (new "" size).Stocked :=
  ⟨"", size, [], hsize, fun _ h => (by cases h), .refl _⟩

theorem Stocked.set {c c' : PMap} (h : c.Stocked) {k v : Bytes}
    (hs : Answered fnv1a64 c (.set k v, none) c') (hk : 2 ≤ (fnv1a64 k).toUInt32) :
    c'.Stocked := by
  obtain ⟨path, size, evs, hsize, hevs, hrun⟩ := h
  refine ⟨path, size, evs ++ [(.set k v, none)], hsize, fun ev hev => ?_,
    hrun.append (.cons hs (.refl _))⟩
  rcases List.mem_append.mp hev with hev | hev
  · exact hevs ev hev
  · rw [List.mem_singleton.mp hev]
    exact ⟨trivial, rfl, hk⟩

/-- **A full map refuses every `Set`**, and keeps what it has. -/
theorem Reached.set_full {c : PMap} (hc : c.Reached fnv1a64) (hfull : c.hm.full = true)
    (k : Bytes) {v : Bytes} (hv : 8 ≤ v.length) :
    ∃ c', c.set (fnv1a64 k) k v = .ok (some .hashMapLimit, c') ∧ c'.value = c.value := by
  obtain ⟨L, hr, hsize⟩ := hc.exists_refines
  obtain ⟨e, c', hs⟩ := exists_step hr (hr.size_eq.trans_le hsize)
    (show (Op.set k v).Timed from trivial)
  obtain ⟨he, hr', -⟩ := hs.refines hr
  have hans : L.answer c.hm.full (.set k v) = some .hashMapLimit := by
    rw [Ledger.answer, if_neg (not_lt.mpr hv), if_pos hfull]
  obtain rfl : e = some .hashMapLimit := he.trans hans
  exact ⟨c', hs.2.1, hr'.value_eq.trans hr.value_eq.symm⟩

/-! ## Filling it -/

/-- The first `n` of the keys `K`, of five bytes each, with values of eight bytes, are all there is
in a store of 4 GiB. -/
structure Loaded (K : ℕ → Bytes) (n : ℕ) (c : PMap) (L : Ledger) : Prop where
  refines : c.Refines fnv1a64 L
  size_eq : L.size = 2 ^ 32
  log_eq : logSize L.log = 25 * n
  keys : ∀ k, L.dict k ≠ none ↔ ∃ i < n, K i = k

theorem loaded_new (K : ℕ → Bytes) : Loaded K 0 (new "" (2 ^ 32)) (Ledger.new (2 ^ 32)) :=
  ⟨refines_new _ _ _, rfl, rfl, fun _ => iff_of_false (fun h => h rfl) fun ⟨i, hi, _⟩ =>
    absurd hi (Nat.not_lt_zero i)⟩

variable {K : ℕ → Bytes} {n : ℕ} {c : PMap} {L : Ledger}

/-- Distinct keys fill the map. -/
theorem Loaded.le (h : Loaded K n c L) (hinj : ∀ i < n, ∀ j < n, K i = K j → i = j) :
    n ≤ keyLimit := by
  have hkeys : {k | L.dict k ≠ none} = (((Finset.range n).image K : Finset Bytes) : Set Bytes) := by
    ext k
    rw [Set.mem_ofPred_eq, h.keys, Finset.mem_coe, Finset.mem_image]
    exact exists_congr fun i => and_congr_left fun _ => Finset.mem_range.symm
  have hinj' : Set.InjOn K (Finset.range n) := fun i hi j hj heq =>
    hinj i (Finset.mem_range.mp hi) j (Finset.mem_range.mp hj) heq
  have hcount : L.dict.count = n := by
    rw [Dict.count, hkeys, Set.ncard_coe_finset, Finset.card_image_of_injOn hinj',
      Finset.card_range]
  exact hcount ▸ h.refines.toDenotes.count_le

/-- The next key is accepted, if the map is not full: there is room in the store. -/
theorem Loaded.answer (h : Loaded K n c L) (habsent : L.dict (K n) = none)
    (hlen : (K n).length = 5) (hn : n ≤ keyLimit) {full : Bool} (hfull : full = false) :
    L.answer full (.set (K n) (stamped 0 [])) = none := by
  have hval : (stamped 0 []).length = 8 := by simp [stamped]
  have hroom : L.Room (K n) (stamped 0 []) := by
    have hlimit : keyLimit = 46976204 := rfl
    rw [Ledger.Room, h.log_eq, h.size_eq, Record.size, hlen, hval]
    omega
  rw [L.answer_set hfull (by omega), habsent]
  exact if_pos hroom

/-- The ledger with the next key. -/
theorem Loaded.write (h : Loaded K n c L) (hlen : (K n).length = 5) {c' : PMap}
    (hr : c'.Refines fnv1a64 (L.write fnv1a64 (K n) (stamped 0 []))) :
    Loaded K (n + 1) c' (L.write fnv1a64 (K n) (stamped 0 [])) := by
  have hval : (stamped 0 []).length = 8 := by simp [stamped]
  refine ⟨hr, h.size_eq, ?_, fun k => ?_⟩
  · rw [Ledger.write, logSize_append, logSize_cons, logSize_nil, Record.size, hlen, hval, h.log_eq]
    omega
  · rw [Ledger.write]
    dsimp only
    by_cases hk : k = K n
    · subst hk
      rw [Function.update_self]
      exact iff_of_true (Option.some_ne_none _) ⟨n, Nat.lt_succ_self n, rfl⟩
    · rw [Function.update_of_ne hk, h.keys]
      constructor
      · rintro ⟨i, hi, heq⟩
        exact ⟨i, Nat.lt_succ_of_lt hi, heq⟩
      · rintro ⟨i, hi, rfl⟩
        exact ⟨i, lt_of_le_of_ne (Nat.le_of_lt_succ hi) fun h => hk (congrArg K h), rfl⟩

/-- **One key more**, if the map is not full. -/
theorem Loaded.succ (h : Loaded K n c L) (hnew : ∀ i < n, K i ≠ K n) (hlen : (K n).length = 5)
    (hn : n ≤ keyLimit) (hfull : c.hm.full = false) :
    ∃ c', Answered fnv1a64 c (.set (K n) (stamped 0 []), none) c'
      ∧ Loaded K (n + 1) c' (L.write fnv1a64 (K n) (stamped 0 [])) := by
  have habsent : L.dict (K n) = none := by
    by_contra hk
    obtain ⟨i, hi, heq⟩ := (h.keys _).mp hk
    exact hnew i hi heq
  have hsize : c.st.size ≤ 2 ^ 32 := (h.refines.size_eq.trans h.size_eq).le
  obtain ⟨e, c', hs⟩ := exists_step h.refines hsize
    (show (Op.set (K n) (stamped 0 [])).Timed from trivial)
  obtain ⟨he, hr, -⟩ := hs.refines h.refines
  obtain rfl : e = none := he.trans (h.answer habsent hlen hn hfull)
  have happly : L.apply fnv1a64 (.set (K n) (stamped 0 []), none)
      = L.write fnv1a64 (K n) (stamped 0 []) := by
    rw [Ledger.apply, habsent]
  rw [happly] at hr
  exact ⟨c', ⟨hs.1, hs.2.1⟩, h.write hlen hr⟩

/-- **The map fills up**: as many keys as it takes and one more do not go in, so that one of the
`Set`s finds it full. -/
theorem exists_full_of_keys (hinj : ∀ i ≤ keyLimit, ∀ j ≤ keyLimit, K i = K j → i = j)
    (hlen : ∀ i, (K i).length = 5) (hword : ∀ i, 2 ≤ (fnv1a64 (K i)).toUInt32) :
    ∃ n c L, Loaded K n c L ∧ c.Stocked ∧ c.hm.full = true := by
  have hfill : ∀ n ≤ keyLimit + 1, ∃ m c L, Loaded K m c L ∧ c.Stocked
      ∧ (m = n ∨ c.hm.full = true) := by
    intro n hn
    induction n with
    | zero =>
      exact ⟨0, _, _, loaded_new K, stocked_new le_rfl, Or.inl rfl⟩
    | succ n ih =>
      obtain ⟨m, c, L, hloaded, hstocked, hcase⟩ := ih (by omega)
      cases hfull : c.hm.full with
      | true => exact ⟨m, c, L, hloaded, hstocked, Or.inr hfull⟩
      | false =>
        obtain rfl : m = n := hcase.resolve_right (by rw [hfull]; exact Bool.false_ne_true)
        obtain ⟨c', hs, hloaded'⟩ := hloaded.succ
          (fun i hi heq => hi.ne (hinj i (by omega) m (by omega) heq)) (hlen m) (by omega) hfull
        exact ⟨m + 1, c', _, hloaded', hstocked.set hs (hword m), Or.inl rfl⟩
  obtain ⟨m, c, L, hloaded, hstocked, rfl | hfull⟩ := hfill _ le_rfl
  · have := hloaded.le fun i hi j hj => hinj i (by omega) j (by omega)
    omega
  · exact ⟨m, c, L, hloaded, hstocked, hfull⟩

/-- **A full hash map in a store with room**, built by `Set`s that were all accepted, without the
key `[1]`. -/
theorem exists_full : ∃ c : PMap, c.Stocked ∧ c.hm.full = true ∧ c.value [1] = none := by
  choose b hb using fun i => exists_word (leBytes 4 i)
  have hlimit : keyLimit < 256 ^ 4 := by decide
  obtain ⟨n, c, L, hloaded, hstocked, hfull⟩ :=
    exists_full_of_keys (K := fun i => leBytes 4 i ++ [b i]) (fun i hi j hj heq => by
      have htake := (List.append_inj heq (by simp)).1
      rw [← leNat_leBytes_of_lt (hi.trans_lt hlimit), htake,
        leNat_leBytes_of_lt (hj.trans_lt hlimit)]) (fun i => by simp) hb
  refine ⟨c, hstocked, hfull, ?_⟩
  rw [hloaded.refines.value_eq]
  by_contra hk
  obtain ⟨i, -, heq⟩ := (hloaded.keys _).mp hk
  have hlen := congrArg List.length heq
  simp at hlen

end PMap

end Treeless
