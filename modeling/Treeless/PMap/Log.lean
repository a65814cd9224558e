import Treeless.PMap.Store

/-!
# PMap/Log — the bytes in use are a list of records

`Record.encode` is the layout `put` writes.  A store *is* a log (`Store.IsLog`) when its bytes in
use are the encodings of a list of records, one after the other; an address is a record boundary
exactly when `recordAt` finds a record there.

* `key_of_recordAt`, `val_of_recordAt`: reading at a boundary returns the record;
* `put_eq`: a `put` that is not denied appends its record and touches no byte in use.
-/

namespace Treeless

/-- A pair of the store; a tombstone has an empty value. -/
@[ext] structure Record where
  key : Bytes
  val : Bytes
  deriving DecidableEq, Repr

namespace Record

/-- The bytes of a record in the store. -/
def encode (r : Record) : Bytes :=
  leBytes 4 r.key.length ++ leBytes 4 r.val.length ++ r.key ++ r.val
    ++ leBytes 4 (r.key.length + r.val.length)

/-- The number of bytes of a record in the store. -/
def size (r : Record) : ℕ := 12 + r.key.length + r.val.length

theorem size_mk (k v : Bytes) : (Record.mk k v).size = 12 + k.length + v.length := rfl

@[simp] theorem length_encode (r : Record) : r.encode.length = r.size := by
  simp only [encode, List.length_append, length_leBytes, size]
  omega

theorem twelve_le_size (r : Record) : 12 ≤ r.size := by
  rw [size]
  omega

end Record

/-- The number of bytes of a list of records. -/
def logSize (log : List Record) : ℕ := (log.map Record.size).sum

@[simp] theorem logSize_nil : logSize [] = 0 := rfl

@[simp] theorem logSize_cons (r : Record) (log : List Record) :
    logSize (r :: log) = r.size + logSize log := by simp [logSize]

@[simp] theorem logSize_append (log log' : List Record) :
    logSize (log ++ log') = logSize log + logSize log' := by simp [logSize]

theorem logSize_snoc (log : List Record) (r : Record) :
    logSize (log ++ [r]) = logSize log + r.size := by
  rw [logSize_append, logSize_cons, logSize_nil, Nat.add_zero]

theorem length_le_logSize : ∀ log : List Record, log.length ≤ logSize log
  | [] => le_rfl
  | r :: log => by
      have h := length_le_logSize log
      have h12 := r.twelve_le_size
      rw [List.length_cons, logSize_cons]
      omega

/-- The record that starts at an address, if one does. -/
def recordAt : List Record → ℕ → Option Record
  | [], _ => none
  | r :: log, off =>
    if off = 0 then some r else if off < r.size then none else recordAt log (off - r.size)

theorem recordAt_zero (r : Record) (log : List Record) : recordAt (r :: log) 0 = some r := by
  rw [recordAt, if_pos rfl]

theorem recordAt_size_add (r : Record) (log : List Record) (off : ℕ) :
    recordAt (r :: log) (r.size + off) = recordAt log off := by
  have h := r.twelve_le_size
  rw [recordAt, if_neg (by omega), if_neg (by omega), Nat.add_sub_cancel_left]

/-- A record that starts at an address ends inside the log. -/
theorem add_size_le_of_recordAt : ∀ {log : List Record} {off : ℕ} {r : Record},
    recordAt log off = some r → off + r.size ≤ logSize log
  | r₀ :: log, off, r, h => by
      rw [recordAt] at h
      split at h
      · next h0 =>
        obtain rfl := Option.some.inj h
        simp [h0]
      · split at h
        · cases h
        · have := add_size_le_of_recordAt h
          rw [logSize_cons]
          omega

theorem mem_of_recordAt : ∀ {log : List Record} {off : ℕ} {r : Record},
    recordAt log off = some r → r ∈ log
  | r₀ :: log, off, r, h => by
      rw [recordAt] at h
      split at h
      · obtain rfl := Option.some.inj h
        exact List.mem_cons_self
      · split at h
        · cases h
        · exact List.mem_cons_of_mem _ (mem_of_recordAt h)

/-- A boundary of a log is a boundary of every longer one. -/
theorem recordAt_append_of_some : ∀ {log : List Record} {off : ℕ} {r : Record} (log' : List Record),
    recordAt log off = some r → recordAt (log ++ log') off = some r
  | r₀ :: log, off, r, log', h => by
      rw [recordAt] at h
      rw [List.cons_append, recordAt]
      split at h
      · next h0 => rw [if_pos h0, h]
      · next h0 =>
        split at h
        · cases h
        · next h1 => rw [if_neg h0, if_neg h1, recordAt_append_of_some log' h]

/-- The records behind a log start at its end. -/
theorem recordAt_append_add : ∀ (log log' : List Record) (off : ℕ),
    recordAt (log ++ log') (logSize log + off) = recordAt log' off
  | [], log', off => by rw [List.nil_append, logSize_nil, Nat.zero_add]
  | r :: log, log', off => by
      rw [List.cons_append, logSize_cons, Nat.add_assoc, recordAt_size_add,
        recordAt_append_add log log' off]

theorem recordAt_append_cons (log : List Record) (r : Record) (log' : List Record) :
    recordAt (log ++ r :: log') (logSize log) = some r := by
  have h := recordAt_append_add log (r :: log') 0
  rwa [Nat.add_zero, recordAt_zero] at h

theorem recordAt_append_self (log : List Record) (r : Record) :
    recordAt (log ++ [r]) (logSize log) = some r := recordAt_append_cons log r []

/-- A record of an extended log is one of the log, or the one behind it. -/
theorem recordAt_append_singleton : ∀ {log : List Record} {r₀ : Record} {off : ℕ} {r : Record},
    recordAt (log ++ [r₀]) off = some r →
      recordAt log off = some r ∨ (off = logSize log ∧ r = r₀)
  | [], r₀, off, r, h => by
      rw [List.nil_append, recordAt] at h
      split at h
      · next h0 => exact Or.inr ⟨h0, (Option.some.inj h).symm⟩
      · split at h <;> cases h
  | r₁ :: log, r₀, off, r, h => by
      rw [List.cons_append, recordAt] at h
      rw [recordAt, logSize_cons]
      split at h
      · next h0 => exact Or.inl (by rw [if_pos h0, h])
      · next h0 =>
        split at h
        · cases h
        · next h1 =>
          rw [if_neg h0, if_neg h1]
          rcases recordAt_append_singleton h with h2 | ⟨h2, h3⟩
          · exact Or.inl h2
          · exact Or.inr ⟨by omega, h3⟩

namespace Store

variable {st : Store} {log : List Record} {index : ℕ} {r : Record}

/-- The record `r` stands complete at `index`. -/
structure RecordAt (st : Store) (index : ℕ) (r : Record) : Prop where
  holds : st.file.Holds index r.encode
  fits : index + r.size ≤ st.size
  short : r.key.length + r.val.length < 2 ^ 32

/-- The bytes in use are the records of `log`, all of them addressable by a 32-bit word. -/
structure IsLog (st : Store) (log : List Record) : Prop where
  length_eq : st.length = logSize log
  holds : st.file.Holds 0 (log.flatMap Record.encode)
  fits : st.length ≤ st.size
  addressable : st.length ≤ 2 ^ 32

theorem length_flatMap_encode : ∀ log : List Record,
    (log.flatMap Record.encode).length = logSize log
  | [] => rfl
  | r :: log => by
      rw [List.flatMap_cons, List.length_append, length_flatMap_encode log, Record.length_encode,
        logSize_cons]

theorem holds_of_recordAt {m : Mem} : ∀ {log : List Record} {base off : ℕ} {r : Record},
    m.Holds base (log.flatMap Record.encode) → recordAt log off = some r →
      m.Holds (base + off) r.encode
  | r₀ :: log, base, off, r, hm, h => by
      rw [List.flatMap_cons, Mem.holds_append, Record.length_encode] at hm
      rw [recordAt] at h
      split at h
      · next h0 =>
        obtain rfl := Option.some.inj h
        rw [h0]
        exact hm.1
      · split at h
        · cases h
        · have := holds_of_recordAt hm.2 h
          rwa [show base + r₀.size + (off - r₀.size) = base + off by omega] at this

/-- **A boundary of the log is a complete record of the store.** -/
theorem IsLog.recordAt (h : st.IsLog log) (hr : recordAt log index = some r) :
    st.RecordAt index r := by
  have hsz := add_size_le_of_recordAt hr
  have hlen := h.length_eq
  have hfit := h.fits
  have haddr := h.addressable
  have hsize : r.size = 12 + r.key.length + r.val.length := rfl
  refine ⟨?_, by omega, by omega⟩
  have := holds_of_recordAt h.holds hr
  rwa [Nat.zero_add] at this

/-! ## Reading a record -/

theorem sliceOf_eq {lo hi : ℕ} (h1 : lo ≤ hi) (h2 : hi ≤ st.size) :
    st.sliceOf lo hi = .ok ⟨lo, hi - lo⟩ := if_pos ⟨h1, h2⟩

theorem first8_eq {st : Store} {off len : ℕ} (h : off + 8 ≤ st.size) :
    st.first8 ⟨off, len⟩ = .ok (st.file.read off 8) := by
  rw [first8, sliceOf_eq (Nat.le_add_right _ _) h]
  change Except.ok (st.file.read _ _) = _
  rw [Nat.add_sub_cancel_left]

theorem uint32_of_holds {off x : ℕ} (hx : x < 2 ^ 32) (hm : st.file.Holds off (leBytes 4 x))
    (hs : off + 4 ≤ st.size) : st.uint32 off = .ok x := by
  have hread : st.file.read off 4 = leBytes 4 x := by
    have := hm
    rwa [Mem.Holds, length_leBytes] at this
  rw [uint32, sliceOf_eq (by omega) hs]
  change Except.ok (leNat (st.file.read off (off + 4 - off))) = _
  rw [Nat.add_sub_cancel_left, hread, leNat_leBytes_of_lt (by omega)]

/-- The two length words of a record, in front of room for its key and value. -/
structure Header (st : Store) (index k v : ℕ) : Prop where
  keyWord : st.file.Holds index (leBytes 4 k)
  valWord : st.file.Holds (index + 4) (leBytes 4 v)
  fits : index + 8 + k + v ≤ st.size
  short : k + v < 2 ^ 32

namespace Header

variable {k v : ℕ}

theorem keyLen_eq (h : st.Header index k v) : st.keyLen index = .ok k := by
  have h1 := h.fits
  have h2 := h.short
  exact uint32_of_holds (by omega) h.keyWord (by rw [headerKeyOffset]; omega)

theorem valLen_eq (h : st.Header index k v) : st.valLen index = .ok v := by
  have h1 := h.fits
  have h2 := h.short
  exact uint32_of_holds (by omega) h.valWord (by rw [headerValueOffset]; omega)

theorem totalLen_eq (h : st.Header index k v) : st.totalLen index = .ok (k + v) := by
  rw [totalLen, h.keyLen_eq, h.valLen_eq]
  change Except.ok _ = _
  rw [Nat.mod_eq_of_lt h.short]

theorem keySlice_eq (h : st.Header index k v) : st.keySlice index = .ok ⟨index + 8, k⟩ := by
  have h1 := h.fits
  rw [keySlice, h.keyLen_eq, Call.ok_bind, headerSize, sliceOf_eq (by omega) (by omega),
    Nat.add_sub_cancel_left]

theorem valSlice_eq (h : st.Header index k v) : st.valSlice index = .ok ⟨index + 8 + k, v⟩ := by
  have h1 := h.fits
  rw [valSlice, h.keyLen_eq, Call.ok_bind, h.totalLen_eq, Call.ok_bind, headerSize,
    sliceOf_eq (by omega) (by omega)]
  congr 2
  omega

end Header

/-- The length words, the key and the value of `r` stand at `index`: what is read of a record going
forwards. -/
structure Shows (st : Store) (index : ℕ) (r : Record) : Prop
    extends st.Header index r.key.length r.val.length where
  keyBytes : st.file.Holds (index + 8) r.key
  valBytes : st.file.Holds (index + 8 + r.key.length) r.val

namespace Shows

theorem key_eq (h : st.Shows index r) : st.key index = .ok r.key := by
  rw [Store.key, h.keySlice_eq]
  exact congrArg Except.ok h.keyBytes

theorem val_eq (h : st.Shows index r) : st.val index = .ok r.val := by
  rw [Store.val, h.valSlice_eq]
  exact congrArg Except.ok h.valBytes

/-- The first eight bytes of a value of at least eight bytes. -/
theorem first8_eq (h : st.Shows index r) (hv : 8 ≤ r.val.length) :
    st.first8 ⟨index + 8 + r.key.length, r.val.length⟩ = .ok (r.val.take 8) := by
  have h1 := h.fits
  have hread : st.file.read (index + 8 + r.key.length) r.val.length = r.val := h.valBytes
  rw [Store.first8_eq (by omega), ← Mem.take_read _ hv, hread]

/-- The bytes of a record are all that is read of it. -/
theorem congr {st' : Store} (h : st.Shows index r)
    (hbytes : ∀ i < index + r.size, st'.file i = st.file i) (hsize : st'.size = st.size) :
    st'.Shows index r := by
  have hr : r.size = 12 + r.key.length + r.val.length := rfl
  have hholds : ∀ {off : ℕ} {bs : Bytes}, st.file.Holds off bs → off + bs.length ≤ index + r.size →
      st'.file.Holds off bs := fun hm hle =>
    hm.congr fun i _ hi => (hbytes i (hi.trans_le hle)).symm
  exact
    { keyWord := hholds h.keyWord (by rw [length_leBytes]; omega)
      valWord := hholds h.valWord (by rw [length_leBytes]; omega)
      fits := hsize ▸ h.fits
      short := h.short
      keyBytes := hholds h.keyBytes (by omega)
      valBytes := hholds h.valBytes (by omega) }

end Shows

theorem sliceOf_eq_ok {lo hi : ℕ} {s : Slice} (h : st.sliceOf lo hi = .ok s) :
    lo ≤ hi ∧ hi ≤ st.size ∧ s = ⟨lo, hi - lo⟩ := by
  rw [sliceOf] at h
  split at h
  · next hin => exact ⟨hin.1, hin.2, (Except.ok.inj h).symm⟩
  · cases h

/-- A word that is read stands in the file. -/
theorem holds_of_uint32 {off x : ℕ} (h : st.uint32 off = .ok x) :
    off + 4 ≤ st.size ∧ st.file.Holds off (leBytes 4 x) ∧ x < 2 ^ 32 := by
  obtain ⟨s, hs, rfl⟩ := Call.map_eq_ok.mp h
  obtain ⟨-, hfits, rfl⟩ := sliceOf_eq_ok hs
  have hlen : (st.file.read off 4).length = 4 := Mem.length_read ..
  have hview : st.view ⟨off, off + 4 - off⟩ = st.file.read off 4 := by
    rw [Nat.add_sub_cancel_left]
    rfl
  rw [hview]
  refine ⟨hfits, ?_, ?_⟩
  · have hword := leBytes_leNat (st.file.read off 4)
    rw [hlen] at hword
    rw [hword, Mem.Holds, hlen]
  · have hlt := leNat_lt (st.file.read off 4)
    rwa [hlen] at hlt

/-- **What can be read as a record shows one.** -/
theorem exists_shows {k : Bytes} {s : Slice} (hkey : st.key index = .ok k)
    (hval : st.valSlice index = .ok s) :
    ∃ r : Record, st.Shows index r ∧ r.key = k ∧ s = ⟨index + 8 + k.length, r.val.length⟩ := by
  obtain ⟨sk, hsk, rfl⟩ := Call.map_eq_ok.mp hkey
  obtain ⟨n, hn, hsk⟩ := Call.bind_eq_ok.mp hsk
  obtain ⟨-, hkfits, rfl⟩ := sliceOf_eq_ok hsk
  obtain ⟨n', hn', hval⟩ := Call.bind_eq_ok.mp hval
  obtain rfl : n = n' := Except.ok.inj (hn.symm.trans hn')
  obtain ⟨t, ht, hval⟩ := Call.bind_eq_ok.mp hval
  obtain ⟨hle, hfits, rfl⟩ := sliceOf_eq_ok hval
  obtain ⟨n'', hn'', ht⟩ := Call.bind_eq_ok.mp ht
  obtain rfl : n = n'' := Except.ok.inj (hn.symm.trans hn'')
  obtain ⟨l, hl, ht⟩ := Call.bind_eq_ok.mp ht
  obtain ⟨-, hkeyWord, hnlt⟩ := holds_of_uint32 hn
  obtain ⟨-, hvalWord, hllt⟩ := holds_of_uint32 hl
  have ht : (n + l) % 2 ^ 32 = t := Except.ok.inj ht
  rw [headerSize] at hle hfits hkfits ⊢
  -- the sum of the two lengths does not wrap, or the value would end before it starts
  obtain rfl : t = n + l := by omega
  refine ⟨⟨st.file.read (index + 8) n, st.file.read (index + 8 + n) l⟩, ?_, ?_, ?_⟩
  · have hk : (st.file.read (index + 8) n).length = n := Mem.length_read ..
    have hv : (st.file.read (index + 8 + n) l).length = l := Mem.length_read ..
    refine { keyWord := ?_, valWord := ?_, fits := ?_, short := ?_, keyBytes := ?_, valBytes := ?_ }
      <;> simp only [hk, hv]
    · exact hkeyWord
    · exact hvalWord
    · omega
    · omega
    · rw [Mem.Holds, hk]
    · rw [Mem.Holds, hv]
  · rw [view, Nat.add_sub_cancel_left]
  · rw [view, Nat.add_sub_cancel_left, Mem.length_read, Mem.length_read]
    congr 1
    omega

namespace RecordAt

/-- The five fields of a record stand one after the other. -/
theorem fields (h : st.RecordAt index r) :
    st.file.Holds index (leBytes 4 r.key.length)
      ∧ st.file.Holds (index + 4) (leBytes 4 r.val.length)
      ∧ st.file.Holds (index + 8) r.key
      ∧ st.file.Holds (index + 8 + r.key.length) r.val
      ∧ st.file.Holds (index + 8 + r.key.length + r.val.length)
          (leBytes 4 (r.key.length + r.val.length)) := by
  have hm := h.holds
  simp only [Record.encode, Mem.holds_append, List.length_append, length_leBytes, Nat.reduceAdd,
    ← Nat.add_assoc] at hm
  obtain ⟨⟨⟨⟨h1, h2⟩, h3⟩, h4⟩, h5⟩ := hm
  exact ⟨h1, h2, h3, h4, h5⟩

theorem header (h : st.RecordAt index r) : st.Header index r.key.length r.val.length :=
  ⟨h.fields.1, h.fields.2.1, by have h1 := h.fits; rw [Record.size] at h1; omega, h.short⟩

theorem shows (h : st.RecordAt index r) : st.Shows index r :=
  ⟨h.header, h.fields.2.2.1, h.fields.2.2.2.1⟩

/-- **The key read at a boundary is the record's.** -/
theorem key_eq (h : st.RecordAt index r) : st.key index = .ok r.key := h.shows.key_eq

/-- **The value read at a boundary is the record's.** -/
theorem val_eq (h : st.RecordAt index r) : st.val index = .ok r.val := h.shows.val_eq

/-- The first eight bytes of a value of at least eight bytes. -/
theorem first8_eq (h : st.RecordAt index r) (hv : 8 ≤ r.val.length) :
    st.first8 ⟨index + 8 + r.key.length, r.val.length⟩ = .ok (r.val.take 8) := h.shows.first8_eq hv

end RecordAt

/-! ## Appending a record -/

/-- The store with the record `r` appended. -/
def append (st : Store) (r : Record) : Store :=
  ({ st with length := st.length + r.size } : Store).poke st.length r.encode

/-- What is behind an appended record is what was there. -/
theorem zero_append (hzero : ∀ i, st.length ≤ i → st.file i = 0) (r : Record) :
    ∀ i, (st.append r).length ≤ i → (st.append r).file i = 0 := by
  intro i hi
  change st.length + r.size ≤ i at hi
  rw [← hzero i (by omega)]
  exact Mem.write_apply_of_outside _ (Or.inr (by rw [Record.length_encode]; exact hi))

@[simp] theorem size_poke (off : ℕ) (bs : Bytes) : (st.poke off bs).size = st.size := rfl

theorem poke_poke {off off' : ℕ} {bs : Bytes} (h : off' = off + bs.length) (cs : Bytes) :
    (st.poke off bs).poke off' cs = st.poke off (bs ++ cs) := by
  rw [h, poke, poke, poke, Mem.write_append]

theorem putUint32_eq {off x : ℕ} (h : off + 4 ≤ st.size) :
    st.putUint32 off x = .ok (st.poke off (leBytes 4 x)) := by
  rw [putUint32, sliceOf_eq (by omega) h]
  rfl

theorem copy_eq {off n : ℕ} {bs : Bytes} (hn : n = bs.length) :
    st.copy ⟨off, n⟩ bs = st.poke off bs := by
  rw [copy, hn, List.take_length]

theorem header_poke {off k v : ℕ} (bs : Bytes) (hfits : off + 8 + k + v ≤ st.size)
    (hshort : k + v < 2 ^ 32) :
    (st.poke off (leBytes 4 k ++ leBytes 4 v ++ bs)).Header off k v := by
  have hw := Mem.holds_write st.file off (leBytes 4 k ++ leBytes 4 v ++ bs)
  rw [Mem.holds_append, Mem.holds_append, length_leBytes] at hw
  exact ⟨hw.1.1, hw.1.2, hfits, hshort⟩

/-- **A `put` that is not denied appends its record**, if the record's lengths fit their words. -/
theorem put_eq {key val : Bytes} (hroom : st.length + (Record.mk key val).size < st.size)
    (hshort : key.length + val.length < 2 ^ 32) :
    st.put key val = .ok (.ok (UInt32.ofNat st.length, st.append ⟨key, val⟩)) := by
  have hsize : (Record.mk key val).size = 4 + 4 + 4 + key.length + val.length := rfl
  rw [hsize] at hroom
  obtain ⟨st₀, hst₀⟩ : ∃ st₀ : Store,
      { st with length := st.length + (4 + 4 + 4 + key.length + val.length) } = st₀ := ⟨_, rfl⟩
  have hs : st₀.size = st.size := hst₀ ▸ rfl
  have h1 : st₀.setKeyLen st.length key.length
      = .ok (st₀.poke st.length (leBytes 4 key.length)) := putUint32_eq (by omega)
  have h2 : (st₀.poke st.length (leBytes 4 key.length)).setValLen st.length val.length
      = .ok (st₀.poke st.length (leBytes 4 key.length ++ leBytes 4 val.length)) := by
    rw [setValLen, headerValueOffset, putUint32_eq (by rw [size_poke]; omega),
      poke_poke (by rw [length_leBytes])]
  have hhead : ∀ bs,
      (st₀.poke st.length (leBytes 4 key.length ++ leBytes 4 val.length ++ bs)).Header
      st.length key.length val.length := fun bs => header_poke bs (by omega) hshort
  have h3 : (st₀.poke st.length (leBytes 4 key.length ++ leBytes 4 val.length)).copy
        ⟨st.length + 8, key.length⟩ key
      = st₀.poke st.length (leBytes 4 key.length ++ leBytes 4 val.length ++ key) := by
    rw [copy_eq rfl, poke_poke (by simp)]
  have h4 : (st₀.poke st.length (leBytes 4 key.length ++ leBytes 4 val.length ++ key)).copy
        ⟨st.length + 8 + key.length, val.length⟩ val
      = st₀.poke st.length (leBytes 4 key.length ++ leBytes 4 val.length ++ key ++ val) := by
    rw [copy_eq rfl, poke_poke (by simp only [List.length_append, length_leBytes]; omega)]
  have h5 :
      (st₀.poke st.length (leBytes 4 key.length ++ leBytes 4 val.length ++ key ++ val)).putUint32
        (st.length + 8 + key.length + val.length) (key.length + val.length)
      = .ok (st₀.poke st.length (Record.mk key val).encode) := by
    rw [putUint32_eq (by rw [size_poke]; omega),
      poke_poke (by simp only [List.length_append, length_leBytes]; omega), Record.encode]
  have hk := (hhead []).keySlice_eq
  rw [List.append_nil] at hk
  rw [put]
  dsimp only
  rw [if_neg (by omega), hst₀, h1, Call.ok_bind, h2, Call.ok_bind, hk, Call.ok_bind, h3,
    (hhead key).valSlice_eq, Call.ok_bind, h4, h5, Call.ok_bind, ← hst₀]
  rfl

/-- **A record standing behind the log extends it**, once the length is moved past it. -/
theorem IsLog.advance (h : st.IsLog log) (hr : st.file.Holds st.length r.encode)
    (hfits : st.length + r.size ≤ st.size) (haddr : st.length + r.size ≤ 2 ^ 32) :
    ({ st with length := st.length + r.size } : Store).IsLog (log ++ [r]) where
  length_eq := by
    rw [logSize_snoc, ← h.length_eq]
  holds := by
    rw [List.flatMap_append, Mem.holds_append, length_flatMap_encode, ← h.length_eq, Nat.zero_add]
    exact ⟨h.holds, by simpa using hr⟩
  fits := hfits
  addressable := haddr

/-- Bytes written behind those in use leave the log as it is. -/
theorem IsLog.poke (h : st.IsLog log) (bs : Bytes) : (st.poke st.length bs).IsLog log where
  length_eq := h.length_eq
  holds := h.holds.congr fun i _ hi => by
    rw [length_flatMap_encode, ← h.length_eq] at hi
    exact (Mem.write_apply_of_outside _ (by omega)).symm
  fits := h.fits
  addressable := h.addressable

/-- **An appended record extends the log.** -/
theorem IsLog.append (h : st.IsLog log) (hfits : st.length + r.size ≤ st.size)
    (haddr : st.length + r.size ≤ 2 ^ 32) : (st.append r).IsLog (log ++ [r]) :=
  (h.poke r.encode).advance (Mem.holds_write st.file st.length r.encode) hfits haddr

/-- An appended record leaves the records in use as they are. -/
theorem RecordAt.append (h : st.RecordAt index r) (hle : index + r.size ≤ st.length) (r' : Record) :
    (st.append r').RecordAt index r where
  holds := h.holds.congr fun i _ hi => by
    rw [Record.length_encode] at hi
    exact (Mem.write_apply_of_outside _ (by omega)).symm
  fits := h.fits
  short := h.short

/-- The bytes in use show the records of `log`, one behind the other; their trailers are not asked
for. -/
structure Lists (st : Store) (log : List Record) : Prop where
  length_eq : st.length = logSize log
  fits : st.length ≤ st.size
  addressable : st.length ≤ 2 ^ 32
  shows : ∀ off r, Treeless.recordAt log off = some r → st.Shows off r

theorem IsLog.lists (h : st.IsLog log) : st.Lists log :=
  ⟨h.length_eq, h.fits, h.addressable, fun _ _ hr => (h.recordAt hr).shows⟩

theorem Lists.congr {st' : Store} (h : st.Lists log) (hfile : st'.file = st.file)
    (hlen : st'.length = st.length) (hsize : st'.size = st.size) : st'.Lists log where
  length_eq := hlen.trans h.length_eq
  fits := by rw [hlen, hsize]; exact h.fits
  addressable := hlen ▸ h.addressable
  shows := fun _ _ hr => (h.shows _ _ hr).congr (fun _ _ => congrFun hfile _) hsize

/-- **An appended record is listed behind the others.** -/
theorem Lists.append (h : st.Lists log) (hfits : st.length + r.size ≤ st.size)
    (haddr : st.length + r.size ≤ 2 ^ 32) : (st.append r).Lists (log ++ [r]) where
  length_eq := by
    rw [logSize_snoc, ← h.length_eq]
    rfl
  fits := hfits
  addressable := haddr
  shows := fun off r' hr' => by
    have hsize : r.size = 12 + r.key.length + r.val.length := rfl
    rcases recordAt_append_singleton hr' with hr' | ⟨rfl, rfl⟩
    · have hle := add_size_le_of_recordAt hr'
      rw [← h.length_eq] at hle
      exact (h.shows _ _ hr').congr
        (fun i hi => Mem.write_apply_of_outside _ (Or.inl (hi.trans_le hle))) rfl
    · rw [← h.length_eq]
      exact RecordAt.shows ⟨Mem.holds_write st.file st.length r'.encode, hfits, by omega⟩

theorem isLog_newStore (size : ℕ) : (newStore size).IsLog [] :=
  ⟨rfl, rfl, Nat.zero_le _, Nat.zero_le _⟩

/-- What a `put` that is not denied does to the length, whatever the lengths. -/
theorem length_of_put {key val : Bytes} {i : UInt32} {st' : Store}
    (h : st.put key val = .ok (.ok (i, st'))) :
    st'.length = st.length + (Record.mk key val).size := by
  rw [put] at h
  dsimp only at h
  split at h
  · cases h
  · simp only [Call.bind_eq_ok, setKeyLen, setValLen, putUint32] at h
    obtain ⟨_, ⟨_, -, ⟨⟩⟩, _, ⟨_, -, ⟨⟩⟩, _, -, _, -, _, ⟨_, -, ⟨⟩⟩, ⟨⟩⟩ := h
    rfl

theorem RecordAt.congr {st' : Store} (h : st.RecordAt index r) (hfile : st'.file = st.file)
    (hsize : st'.size = st.size) : st'.RecordAt index r :=
  ⟨hfile ▸ h.holds, hsize ▸ h.fits, h.short⟩

theorem IsLog.congr {st' : Store} (h : st.IsLog log) (hlen : st'.length = st.length)
    (hfile : st'.file = st.file) (hsize : st'.size = st.size) : st'.IsLog log :=
  ⟨hlen ▸ h.length_eq, hfile ▸ h.holds, by rw [hlen, hsize]; exact h.fits, hlen ▸ h.addressable⟩

/-- **The three ways of a `put`**: it is denied, it appends its record, or, in a store of more bytes
than a 32-bit word addresses, it leaves the addressable part. -/
theorem put_cases (st : Store) (key val : Bytes) :
    (st.size ≤ st.length + (Record.mk key val).size ∧ st.put key val = .ok (.error .storeLimit))
    ∨ (st.length + (Record.mk key val).size < st.size
      ∧ st.length + (Record.mk key val).size ≤ 2 ^ 32
      ∧ st.put key val = .ok (.ok (UInt32.ofNat st.length, st.append ⟨key, val⟩)))
    ∨ (st.length + (Record.mk key val).size < st.size
      ∧ 2 ^ 32 < st.length + (Record.mk key val).size
      ∧ (∀ e, st.put key val ≠ .ok (.error e))
      ∧ ∀ i st', st.put key val = .ok (.ok (i, st')) → 2 ^ 32 < st'.length) := by
  have hsize : (Record.mk key val).size = 4 + 4 + 4 + key.length + val.length := rfl
  by_cases hroom : st.length + (Record.mk key val).size < st.size
  · by_cases haddr : st.length + (Record.mk key val).size ≤ 2 ^ 32
    · exact Or.inr (Or.inl ⟨hroom, haddr, put_eq hroom (by omega)⟩)
    · refine Or.inr (Or.inr ⟨hroom, not_le.mp haddr, fun e h => ?_, fun i st' h => ?_⟩)
      · rw [put] at h
        dsimp only at h
        rw [if_neg (by omega)] at h
        simp only [Call.bind_eq_ok] at h
        obtain ⟨_, -, _, -, _, -, _, -, _, -, ⟨⟩⟩ := h
      · rw [length_of_put h]
        omega
  · refine Or.inl ⟨not_lt.mp hroom, ?_⟩
    rw [put]
    dsimp only
    rw [if_pos (by omega)]

end Store

end Treeless
