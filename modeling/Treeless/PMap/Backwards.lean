import Treeless.PMap.Iterate

/-!
# PMap/Backwards — the log, from its end

A record ends with the sum of its two lengths, so the one before an address is found from the four
bytes in front of it (`Store.prev`).  The chunk is not locked while the iteration hands out a pair,
so other requests may come between two of its turns; a `Cursor` is what the iteration remembers.

    idle ──backwardsStart──► at i ──the pair at i──► past i ──backwardsNext──► at i' ─ … ─► done

A turn reaches the record right before, whatever was appended meanwhile (`Denotes.backwardsNext`).
-/

namespace Treeless

/-- The address of the record before the one at `index`; `-1` if there is none. -/
def Store.prev (st : Store) (index : ℕ) : Call ℤ :=
  if (index : ℤ) - 4 > 0 then do
    let total ← st.uint32 (index - 4)
    return (index : ℤ) - 12 - total
  else .ok (-1)

/-- Where a backwards iteration is. -/
inductive Cursor
  | idle
  /-- The record at `index` comes next. -/
  | «at» (index : ℕ)
  /-- The pair at `index` has been handed out, if it was present. -/
  | past (index : ℕ)
  | done
  deriving DecidableEq, Repr

namespace PMap

variable (c : PMap)

/-- The record the iteration starts with. -/
def backwardsStart : Call Cursor :=
  if c.st.length ≤ 0 then .ok .done
  else do
    let prev ← c.st.prev c.st.length
    -- the sign is tested after the conversion, so it is never negative
    return .at (prev % 2 ^ 64).toNat

/-- The record after the one at `index`, backwards. -/
def backwardsNext (index : ℕ) : Call Cursor := do
  let prev ← c.st.prev index
  if prev < 0 then return .done else return .at prev.toNat

end PMap

/-! ## The record before an address -/

/-- `off` is the boundary of a record of the log, or its end. -/
def Boundary (log : List Record) (off : ℕ) : Prop :=
  (∃ r, recordAt log off = some r) ∨ off = logSize log

/-- What is a boundary of a log is one of every longer log. -/
theorem Boundary.append {log : List Record} {off : ℕ} (h : Boundary log off) (rest : List Record) :
    Boundary (log ++ rest) off := by
  rcases h with ⟨r, hr⟩ | rfl
  · exact Or.inl ⟨r, recordAt_append_of_some rest hr⟩
  · cases rest with
    | nil => exact Or.inr (by rw [List.append_nil])
    | cons r rest =>
      refine Or.inl ⟨r, ?_⟩
      have := recordAt_append_add log (r :: rest) 0
      rwa [Nat.add_zero, recordAt_zero] at this

theorem Boundary.cons {log : List Record} {off : ℕ} (h : Boundary log off) (r₀ : Record) :
    Boundary (r₀ :: log) (r₀.size + off) := by
  rcases h with ⟨r, hr⟩ | rfl
  · exact Or.inl ⟨r, (recordAt_size_add ..).trans hr⟩
  · exact Or.inr (logSize_cons ..).symm

theorem boundary_zero : ∀ log : List Record, Boundary log 0
  | [] => Or.inr rfl
  | r :: log => Or.inl ⟨r, recordAt_zero r log⟩

/-- **The end of a record is a boundary.** -/
theorem boundary_of_recordAt : ∀ {log : List Record} {off : ℕ} {r : Record},
    recordAt log off = some r → Boundary log (off + r.size)
  | r₀ :: log, off, r, h => by
      rw [recordAt] at h
      split at h
      · next h0 =>
        obtain rfl := Option.some.inj h
        rw [h0, Nat.zero_add]
        exact (boundary_zero log).cons r₀
      · split at h
        · cases h
        · next hge =>
          have := (boundary_of_recordAt h).cons r₀
          rwa [show r₀.size + (off - r₀.size + r.size) = off + r.size by omega] at this

/-- **Every boundary but the first is the end of a record.** -/
theorem exists_record_before : ∀ {log : List Record} {off : ℕ}, Boundary log off → 0 < off →
    ∃ off' r, recordAt log off' = some r ∧ off' + r.size = off
  | [], off, h, hpos => by
      rcases h with ⟨r, hr⟩ | rfl
      · cases hr
      · exact absurd hpos (Nat.lt_irrefl 0)
  | r₀ :: log, off, h, hpos => by
      have h12 := r₀.twelve_le_size
      -- behind the first record
      have hrest : r₀.size ≤ off ∧ Boundary log (off - r₀.size) := by
        rcases h with ⟨r, hr⟩ | rfl
        · rw [recordAt, if_neg hpos.ne'] at hr
          split at hr
          · cases hr
          · next hge => exact ⟨not_lt.mp hge, Or.inl ⟨r, hr⟩⟩
        · rw [logSize_cons, Nat.add_sub_cancel_left]
          exact ⟨Nat.le_add_right .., Or.inr rfl⟩
      rcases Nat.eq_zero_or_pos (off - r₀.size) with hzero | hpos'
      · exact ⟨0, r₀, recordAt_zero .., by omega⟩
      · obtain ⟨off', r, hr, heq⟩ := exists_record_before hrest.2 hpos'
        exact ⟨r₀.size + off', r, (recordAt_size_add ..).trans hr, by omega⟩

/-- No record stands between a record and the end of the one before. -/
theorem le_of_recordAt_lt {log : List Record} {off off' : ℕ} {r r' : Record}
    (h : recordAt log off = some r) (h' : recordAt log off' = some r')
    (hlt : off' < off + r.size) : off' ≤ off := by
  refine not_lt.mp fun hgt => ?_
  have := add_size_le_of_lt h h' hgt
  omega

/-- **The trailer of a record leads back to it.** -/
theorem Store.RecordAt.prev_eq {st : Store} {off : ℕ} {r : Record} (h : st.RecordAt off r) :
    st.prev (off + r.size) = .ok (off : ℤ) := by
  have hsize : r.size = 12 + r.key.length + r.val.length := rfl
  have hfits := h.fits
  have hword : st.uint32 (off + r.size - 4) = .ok (r.key.length + r.val.length) := by
    refine uint32_of_holds h.short ?_ (by omega)
    rw [show off + r.size - 4 = off + 8 + r.key.length + r.val.length by omega]
    exact h.fields.2.2.2.2
  rw [prev, if_pos (by omega), hword, Call.ok_bind]
  refine congrArg Except.ok ?_
  omega

namespace PMap

variable {c : PMap} {hash : Bytes → UInt64} {log : List Record} {m : Dict}

/-- **One turn backwards**: from a record to the one right before, or to the end. -/
theorem Denotes.backwardsNext (h : c.Denotes hash log m) {index : ℕ} {r : Record}
    (hr : recordAt log index = some r) :
    (index = 0 ∧ c.backwardsNext index = .ok .done)
      ∨ ∃ off r', recordAt log off = some r' ∧ off + r'.size = index
        ∧ c.backwardsNext index = .ok (.at off) := by
  rcases Nat.eq_zero_or_pos index with rfl | hpos
  · exact Or.inl ⟨rfl, rfl⟩
  · obtain ⟨off, r', hr', rfl⟩ := exists_record_before (Or.inl ⟨r, hr⟩) hpos
    refine Or.inr ⟨off, r', hr', rfl, ?_⟩
    rw [PMap.backwardsNext, (h.isLog.recordAt hr').prev_eq, Call.ok_bind,
      if_neg (not_lt.mpr (Int.natCast_nonneg off))]
    rfl

/-- **The first turn**: to the last record of the log, if there is one. -/
theorem Denotes.backwardsStart (h : c.Denotes hash log m) :
    (log = [] ∧ c.backwardsStart = .ok .done)
      ∨ ∃ off r, recordAt log off = some r ∧ off + r.size = logSize log
        ∧ c.backwardsStart = .ok (.at off) := by
  have hlen := h.isLog.length_eq
  have haddr := h.isLog.addressable
  rcases Nat.eq_zero_or_pos (logSize log) with hzero | hpos
  · have hnil : log = [] := by
      cases log with
      | nil => rfl
      | cons r log =>
        have h12 := r.twelve_le_size
        rw [logSize_cons] at hzero
        omega
    exact Or.inl ⟨hnil, if_pos (hlen.trans hzero).le⟩
  · obtain ⟨off, r, hr, heq⟩ := exists_record_before (Or.inr rfl) hpos
    refine Or.inr ⟨off, r, hr, heq, ?_⟩
    rw [PMap.backwardsStart, if_neg (by omega), hlen, ← heq, (h.isLog.recordAt hr).prev_eq,
      Call.ok_bind]
    have hmod : ((off : ℤ) % 2 ^ 64).toNat = off := by omega
    rw [hmod]
    rfl

/-! ## The pair a turn shows -/

/-- A record with a timestamp, of a key whose hash word is not reserved. -/
def Plain (r : Record) : Prop := 8 ≤ r.val.length ∧ 2 ≤ (fnv1a64 r.key).toUInt32

/-- **A plain record shows** if it has the timestamp of the current value of its key. -/
theorem Denotes.pairAt_plain (h : c.Denotes fnv1a64 log m) {off : ℕ} {r : Record}
    (hr : recordAt log off = some r) (hplain : Plain r) :
    ∃ pair, c.pairAt off = .ok pair ∧ (pair = some (r.key, r.val) ∨ pair = none)
      ∧ (pair = some (r.key, r.val) ↔ ∃ v, m r.key = some v ∧ v.take 8 = r.val.take 8) := by
  have hat := h.isLog.recordAt hr
  have hshown : c.st.shown (off, r) = r.val.take 8 := by
    have hread : c.st.file.read (off + 8 + r.key.length) r.val.length = r.val := hat.fields.2.2.2.1
    rw [Store.shown, ← Mem.take_read _ hplain.1, hread]
  refine ⟨_, pairAt_of_shows hat.shows (h.isPresent_eq hr hplain.2), ?_, ?_⟩
  · cases c.st.current m (off, r)
    · exact Or.inr rfl
    · exact Or.inl rfl
  · rw [Store.current]
    dsimp only
    rw [hshown]
    cases hm : m r.key with
    | none => simp
    | some v => simp

end PMap

end Treeless
