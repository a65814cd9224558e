import Treeless.PMap.Index

/-!
# PMap/Search — the dictionary a `PMap` denotes, and where a search ends

`PMap.Denotes hash c log m`: the store of `c` is the log `log`, and its bucket array indexes the
dictionary `m` over it.  A denoted dictionary is the one read off the live buckets (`value_eq`), and
the search for a key ends at its bucket (`search_found`), or at an empty one where the key may be
filed (`search_empty`).  For all this it is enough that the array files `m`, over records that can
be read going forwards (`PMap.Ordered`).
-/

namespace Treeless

namespace PMap

/-- The value the live bucket of a key points at. -/
def value (c : PMap) (key : Bytes) : Option Bytes :=
  (List.range c.hm.size).findSome? fun i =>
    if 2 ≤ c.hm.getHash i ∧ c.st.key (c.hm.getStoreIndex i).toNat = .ok key then
      (c.st.val (c.hm.getStoreIndex i).toNat).toOption
    else none

/-- A live bucket of `c` points at a record of `key` and `val`. -/
def Maps (c : PMap) (key val : Bytes) : Prop :=
  ∃ i < c.hm.size, 2 ≤ c.hm.getHash i ∧ c.st.key (c.hm.getStoreIndex i).toNat = .ok key
    ∧ c.st.val (c.hm.getStoreIndex i).toNat = .ok val

/-- `c` stands for the dictionary `m`, over the records `log`. -/
structure Denotes (hash : Bytes → UInt64) (c : PMap) (log : List Record) (m : Dict) : Prop where
  index : c.hm.Indexes hash log m
  isLog : c.st.IsLog log

/-- The bucket array of `c` files the dictionary `m`, over the records `log`. -/
structure Ordered (hash : Bytes → UInt64) (c : PMap) (log : List Record) (m : Dict) : Prop where
  files : c.hm.Files hash log m
  readable : ∀ off r, recordAt log off = some r → c.st.Shows off r

variable {hash : Bytes → UInt64} {c : PMap} {log : List Record} {m : Dict}

theorem Denotes.ordered (h : c.Denotes hash log m) : c.Ordered hash log m :=
  ⟨h.index.files, h.isLog.lists.shows⟩

/-- A new `PMap` denotes the empty dictionary. -/
theorem denotes_new (hash : Bytes → UInt64) (path : String) (size : ℕ) :
    (new path size).Denotes hash [] fun _ => none :=
  ⟨.new hash, Store.isLog_newStore size⟩

namespace Denotes

/-- A bucket in use points at a complete record. -/
theorem complete (h : c.Denotes hash log m) {i : ℕ} {r : Record}
    (hr : c.hm.target log i = some r) : c.st.RecordAt (c.hm.getStoreIndex i).toNat r :=
  h.isLog.recordAt hr

end Denotes

namespace Ordered

/-- A bucket in use points at a record that can be read. -/
theorem shows (h : c.Ordered hash log m) {i : ℕ} {r : Record}
    (hr : c.hm.target log i = some r) : c.st.Shows (c.hm.getStoreIndex i).toNat r :=
  h.readable _ _ hr

theorem maps_iff (h : c.Ordered hash log m) (k v : Bytes) : c.Maps k v ↔ m k = some v := by
  constructor
  · rintro ⟨i, hi, hi2, hkey, hval⟩
    obtain ⟨r, hr⟩ := h.files.tagged i hi (HashMap.not_free_of_two_le hi2)
    obtain rfl : r.key = k := Except.ok.inj ((h.shows hr).key_eq.symm.trans hkey)
    obtain rfl : r.val = v := Except.ok.inj ((h.shows hr).val_eq.symm.trans hval)
    exact (h.files.live i hi hi2 r hr).2
  · intro hk
    obtain ⟨i, hi, hi2, hr⟩ := h.files.mem k v hk
    exact ⟨i, hi, hi2, (h.shows hr).key_eq, (h.shows hr).val_eq⟩

/-- **The dictionary filed is the one the live buckets show.** -/
theorem value_eq (h : c.Ordered hash log m) : c.value = m := by
  funext k
  have hsome : ∀ v, c.value k = some v → m k = some v := fun v hv => by
    obtain ⟨i, hi, hif⟩ := List.exists_of_findSome?_eq_some hv
    split at hif
    · next hlive =>
      rw [← h.maps_iff]
      refine ⟨i, List.mem_range.mp hi, hlive.1, hlive.2, ?_⟩
      cases hval : c.st.val (c.hm.getStoreIndex i).toNat with
      | ok w => rw [hval] at hif; exact congrArg Except.ok (Option.some.inj hif)
      | error e => rw [hval] at hif; cases hif
    · cases hif
  cases hv : c.value k with
  | some v => exact (hsome v hv).symm
  | none =>
    cases hk : m k with
    | none => rfl
    | some v =>
      obtain ⟨i, hi, hi2, hkey, hval⟩ := (h.maps_iff k v).mpr hk
      have hnone := List.findSome?_eq_none_iff.mp hv i (List.mem_range.mpr hi)
      rw [if_pos ⟨hi2, hkey⟩, hval] at hnone
      cases hnone

end Ordered

namespace Denotes

/-- **The dictionary denoted is the one the live buckets show.** -/
theorem value_eq (h : c.Denotes hash log m) : c.value = m := h.ordered.value_eq

end Denotes

/-! ## The search -/

/-- A bucket the search for a key of hash word `h` stops at. -/
def Stop (c : PMap) (h : UInt32) (key : Bytes) (i : ℕ) : Prop :=
  c.hm.Free i ∨ (c.hm.getHash i = h ∧ c.st.key (c.hm.getStoreIndex i).toNat = .ok key)

instance (c : PMap) (h : UInt32) (key : Bytes) : DecidablePred (c.Stop h key) := fun _ =>
  inferInstanceAs (Decidable (_ ∨ (_ ∧ _)))

/-- What the search returns for the bucket it stops at. -/
def slotAt (c : PMap) (i : ℕ) : Slot :=
  if c.hm.Free i then .empty i else .found i (c.hm.getStoreIndex i)

/-- **The probing loop is a seek**, if every bucket in use has a readable key. -/
theorem probe_eq (hs : c.hm.Shaped)
    (hread : ∀ i < c.hm.size, ¬ c.hm.Free i → ∃ k, c.st.key (c.hm.getStoreIndex i).toNat = .ok k)
    (h : UInt32) (key : Bytes) : ∀ fuel, ∀ i < c.hm.size, c.probe h key fuel i
      = match seek c.hm.size (c.Stop h key) fuel i with
        | some j => .ok (c.slotAt j)
        | none => .error .endless
  | 0, _, _ => rfl
  | fuel + 1, i, hi => by
      have hnext : (i + 1) % c.hm.size < c.hm.size := Nat.mod_lt _ hs.size_pos
      rw [probe, seek]
      by_cases hf : c.hm.getHash i = emptyBucket
      · rw [if_pos hf, if_pos (show c.Stop h key i from Or.inl hf)]
        exact congrArg Except.ok (if_pos hf).symm
      · rw [if_neg hf]
        by_cases hh : h = c.hm.getHash i
        · obtain ⟨k, hk⟩ := hread i hi hf
          rw [if_pos hh]
          dsimp only
          rw [hk, Call.ok_bind]
          by_cases hkey : k = key
          · rw [if_pos hkey, if_pos (show c.Stop h key i from Or.inr ⟨hh.symm, hkey ▸ hk⟩)]
            exact congrArg Except.ok (if_neg hf).symm
          · have hns : ¬ c.Stop h key i := by
              rintro (h0 | ⟨-, h0⟩)
              · exact hf h0
              · exact hkey (Except.ok.inj (hk.symm.trans h0))
            rw [if_neg hkey, if_neg hns, hs.and_mask, probe_eq hs hread h key fuel _ hnext]
        · have hns : ¬ c.Stop h key i := by
            rintro (h0 | ⟨h0, -⟩)
            · exact hf h0
            · exact hh h0.symm
          rw [if_neg hh, if_neg hns, hs.and_mask, probe_eq hs hread h key fuel _ hnext]

namespace Ordered

theorem exists_key (h : c.Ordered hash log m) : ∀ i < c.hm.size, ¬ c.hm.Free i →
    ∃ k, c.st.key (c.hm.getStoreIndex i).toNat = .ok k := fun i hi hne => by
  obtain ⟨r, hr⟩ := h.files.tagged i hi hne
  exact ⟨r.key, (h.shows hr).key_eq⟩

theorem search_eq (h : c.Ordered hash log m) (w : UInt32) (key : Bytes) : c.search w key
    = match seek c.hm.size (c.Stop w key) c.hm.size (w.toNat % c.hm.size) with
      | some j => .ok (c.slotAt j)
      | none => .error .endless := by
  rw [search, h.files.valid.and_mask]
  exact probe_eq h.files.valid.toShaped h.exists_key w key _ _
    (Nat.mod_lt _ h.files.valid.size_pos)

/-- **The search for a key of the dictionary ends at its bucket.** -/
theorem search_found (h : c.Ordered hash log m) {k v : Bytes} (hk : m k = some v) :
    ∃ i < c.hm.size, c.search (hashWord hash k) k = .ok (.found i (c.hm.getStoreIndex i))
      ∧ 2 ≤ c.hm.getHash i ∧ c.hm.target log i = some ⟨k, v⟩ := by
  obtain ⟨i, hi, hi2, hr⟩ := h.files.mem k v hk
  have hw : c.hm.getHash i = hashWord hash k := (h.files.live i hi hi2 _ hr).1
  have hhome : (hashWord hash k).toNat % c.hm.size < c.hm.size :=
    Nat.mod_lt _ h.files.valid.size_pos
  have hseek : seek c.hm.size (c.Stop (hashWord hash k) k) c.hm.size
      ((hashWord hash k).toNat % c.hm.size) = some i := by
    refine seek_eq_of_linked hhome (hw ▸ h.files.valid.probed i hi hi2)
      (Or.inr ⟨hw, (h.shows hr).key_eq⟩) fun j hj hstop => ?_
    rcases hstop with hf | ⟨hjw, hjk⟩
    · exact Or.inl hf
    · have hj2 : 2 ≤ c.hm.getHash j := hjw ▸ two_le_hashWord hash k
      obtain ⟨r, hr'⟩ := h.files.tagged j hj (HashMap.not_free_of_two_le hj2)
      have hrk : r.key = k := Except.ok.inj ((h.shows hr').key_eq.symm.trans hjk)
      exact Or.inr (h.files.unique j hj i hi hj2 hi2 r _ hr' hr hrk)
  refine ⟨i, hi, ?_, hi2, hr⟩
  rw [h.search_eq, hseek]
  exact congrArg Except.ok (if_neg (HashMap.not_free_of_two_le hi2))

/-- **Where a search ends**, whatever the hash word: at an empty bucket, linked to its home, or at a
bucket of the word and the key. -/
theorem search_ends (h : c.Ordered hash log m) (w : UInt32) (key : Bytes) :
    (∃ i < c.hm.size, c.search w key = .ok (.empty i) ∧ c.hm.Free i
      ∧ Linked c.hm.size c.hm.Free (w.toNat % c.hm.size) i)
    ∨ ∃ i < c.hm.size, c.search w key = .ok (.found i (c.hm.getStoreIndex i))
      ∧ ¬ c.hm.Free i ∧ c.hm.getHash i = w
      ∧ ∃ r, c.hm.target log i = some r ∧ r.key = key := by
  have hhome : w.toNat % c.hm.size < c.hm.size := Nat.mod_lt _ h.files.valid.size_pos
  obtain ⟨f, hf, hfree⟩ := HashMap.exists_free h.files.valid.used_lt_size
  have hstop : c.Stop w key f := Or.inl hfree
  obtain ⟨i, hseek⟩ := exists_seek hhome hf hstop
  have hi := seek_lt hhome hseek
  rw [h.search_eq, hseek]
  by_cases hfi : c.hm.Free i
  · exact Or.inl ⟨i, hi, congrArg Except.ok (if_pos hfi), hfi,
      linked_of_seek hhome (fun _ h => Or.inl h) hseek⟩
  · obtain ⟨hiw, hik⟩ := (stop_of_seek hhome hseek).resolve_left hfi
    obtain ⟨r, hr⟩ := h.files.tagged i hi hfi
    exact Or.inr ⟨i, hi, congrArg Except.ok (if_neg hfi), hfi, hiw, r, hr,
      Except.ok.inj ((h.shows hr).key_eq.symm.trans hik)⟩

/-- **The search for an absent key ends at an empty bucket, linked to its home.** -/
theorem search_empty (h : c.Ordered hash log m) {k : Bytes} (hk : m k = none) :
    ∃ i < c.hm.size, c.search (hashWord hash k) k = .ok (.empty i) ∧ c.hm.Free i
      ∧ Linked c.hm.size c.hm.Free ((hashWord hash k).toNat % c.hm.size) i := by
  rcases h.search_ends (hashWord hash k) k with hempty | ⟨i, hi, -, -, hiw, r, hr, hrk⟩
  · exact hempty
  · have hi2 : 2 ≤ c.hm.getHash i := hiw ▸ two_le_hashWord hash k
    have hlive := (h.files.live i hi hi2 r hr).2
    rw [hrk, hk] at hlive
    cases hlive

/-- The check for space leaves the dictionary as it is. -/
theorem spaced (h : c.Ordered hash log m) {hm : HashMap} (hs : HashMap.Spaced c.hm hm) :
    ({ c with hm } : PMap).Ordered hash log m := ⟨h.files.spaced hs, h.readable⟩

end Ordered

namespace Denotes

theorem search_found (h : c.Denotes hash log m) {k v : Bytes} (hk : m k = some v) :
    ∃ i < c.hm.size, c.search (hashWord hash k) k = .ok (.found i (c.hm.getStoreIndex i))
      ∧ 2 ≤ c.hm.getHash i ∧ c.hm.target log i = some ⟨k, v⟩ := h.ordered.search_found hk

theorem search_empty (h : c.Denotes hash log m) {k : Bytes} (hk : m k = none) :
    ∃ i < c.hm.size, c.search (hashWord hash k) k = .ok (.empty i) ∧ c.hm.Free i
      ∧ Linked c.hm.size c.hm.Free ((hashWord hash k).toNat % c.hm.size) i :=
  h.ordered.search_empty hk

/-- The value of a present key, read through its bucket, before and after a record is appended. -/
theorem readValue (h : c.Denotes hash log m) {k v : Bytes} {i : ℕ} (hi : i < c.hm.size)
    (hi2 : 2 ≤ c.hm.getHash i) (hr : c.hm.target log i = some ⟨k, v⟩) :
    ∃ s : Slice, c.st.valSlice (c.hm.getStoreIndex i).toNat = .ok s ∧ s.len = v.length
      ∧ 8 ≤ v.length ∧ c.st.view s = v ∧ c.st.first8 s = .ok (v.take 8)
      ∧ ∀ r : Record, (c.st.append r).first8 s = .ok (v.take 8) := by
  have hv : 8 ≤ v.length := (h.index.live i hi hi2 _ hr).2.2
  have hat := h.complete hr
  have hle := add_size_le_of_recordAt hr
  rw [← h.isLog.length_eq] at hle
  exact ⟨_, hat.header.valSlice_eq, rfl, hv, hat.fields.2.2.2.1, hat.first8_eq hv,
    fun r => (hat.append hle r).first8_eq hv⟩

/-- The check for space leaves the dictionary as it is. -/
theorem spaced (h : c.Denotes hash log m) {hm : HashMap} (hs : HashMap.Spaced c.hm hm) :
    ({ c with hm } : PMap).Denotes hash log m := by
  rcases hs with ⟨-, rfl⟩ | ⟨-, hle, hN⟩
  · exact h
  · exact ⟨h.index.rehashed hN hle, h.isLog⟩

end Denotes

end PMap

end Treeless
