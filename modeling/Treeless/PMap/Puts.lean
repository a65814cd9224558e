import Treeless.Machinery.Run
import Treeless.PMap.Log

/-!
# PMap/Puts — what a run of accepted puts leaves in a store

    put r₁ ──▸ put r₂ ──▸ … ──▸ put rₙ          0 │ r₁ │ r₂ │ … │ rₙ │ 0 0 0 …

The bytes in use are the records, in order, and all bytes behind them are still zero
(`Store.Wrote`).  A put returns its address as a 32-bit word, which is the address exactly as long
as the store has no room for a record behind the first `2 ^ 32` bytes (`Store.addresses_iff`).
-/

namespace Treeless

namespace Store

/-- A `put` of a record that is accepted, and the word it returns. -/
def Accepts (st : Store) (p : Record × UInt32) (st' : Store) : Prop :=
  st.put p.1.key p.1.val = .ok (.ok (p.2, st'))

/-- The bytes of a store: the records of `log`, and zeros behind them. -/
structure Wrote (st : Store) (log : List Record) : Prop where
  length_eq : st.length = logSize log
  holds : st.file.Holds 0 (log.flatMap Record.encode)
  fits : st.length ≤ st.size
  short : ∀ r ∈ log, r.key.length + r.val.length < 2 ^ 32
  zero : ∀ i, st.length ≤ i → st.file i = 0

variable {st st' : Store} {log : List Record} {r : Record}

theorem wrote_newStore (size : ℕ) : (newStore size).Wrote [] :=
  ⟨rfl, rfl, Nat.zero_le _, fun _ h => absurd h List.not_mem_nil, fun _ _ => rfl⟩

theorem Wrote.recordAt (h : st.Wrote log) {off : ℕ} (hr : recordAt log off = some r) :
    st.RecordAt off r := by
  have hsz := add_size_le_of_recordAt hr
  have hlen := h.length_eq
  have hfits := h.fits
  refine ⟨?_, by omega, h.short r (mem_of_recordAt hr)⟩
  have hholds := holds_of_recordAt h.holds hr
  rwa [Nat.zero_add] at hholds

/-- An appended record extends what was written. -/
theorem Wrote.append (h : st.Wrote log) (hfits : st.length + r.size ≤ st.size)
    (hshort : r.key.length + r.val.length < 2 ^ 32) : (st.append r).Wrote (log ++ [r]) where
  length_eq := by
    rw [logSize_snoc, ← h.length_eq]
    rfl
  holds := by
    rw [List.flatMap_append, Mem.holds_append, length_flatMap_encode, ← h.length_eq, Nat.zero_add]
    refine ⟨h.holds.congr fun i _ hi => ?_, ?_⟩
    · rw [length_flatMap_encode, ← h.length_eq, Nat.zero_add] at hi
      exact (Mem.write_apply_of_outside _ (Or.inl hi)).symm
    · rw [List.flatMap_singleton]
      exact Mem.holds_write st.file st.length r.encode
  fits := hfits
  short := fun r' hr' => by
    rcases List.mem_append.mp hr' with hr' | hr'
    · exact h.short r' hr'
    · rwa [List.mem_singleton.mp hr']
  zero := zero_append h.zero r

/-- **An accepted `put`** of lengths that fit their words appends its record. -/
theorem Accepts.append {p : Record × UInt32} (h : st.Accepts p st')
    (hshort : p.1.key.length + p.1.val.length < 2 ^ 32) :
    st.length + p.1.size < st.size ∧ p.2 = UInt32.ofNat st.length ∧ st' = st.append p.1 := by
  obtain ⟨⟨key, val⟩, i⟩ := p
  rw [Accepts] at h
  have hroom : st.length + (Record.mk key val).size < st.size := by
    rcases st.put_cases key val with ⟨-, hdenied⟩ | ⟨hroom, -, -⟩ | ⟨hroom, -, -⟩
    · rw [hdenied] at h
      cases h
    · exact hroom
    · exact hroom
  rw [put_eq hroom hshort] at h
  obtain ⟨hi, hst⟩ := Prod.mk.inj (Except.ok.inj (Except.ok.inj h))
  exact ⟨hroom, hi.symm, hst.symm⟩

/-- What a run of accepted puts has left: the records, and for each of them the word returned. -/
structure Grown (size : ℕ) (ps : List (Record × UInt32)) (st : Store) : Prop
    extends st.Wrote (ps.map Prod.fst) where
  size_eq : st.size = size
  address : ∀ p ∈ ps, ∃ off, recordAt (ps.map Prod.fst) off = some p.1 ∧ p.2 = UInt32.ofNat off
    ∧ off + p.1.size < size

theorem Grown.accepts {size : ℕ} {ps : List (Record × UInt32)} {p : Record × UInt32}
    (h : Grown size ps st) (hs : st.Accepts p st')
    (hshort : p.1.key.length + p.1.val.length < 2 ^ 32) : Grown size (ps ++ [p]) st' := by
  obtain ⟨hroom, hi, rfl⟩ := hs.append hshort
  have hmap : (ps ++ [p]).map Prod.fst = ps.map Prod.fst ++ [p.1] := List.map_append
  refine ⟨hmap ▸ h.toWrote.append hroom.le hshort, h.size_eq, fun q hq => ?_⟩
  rw [hmap]
  rcases List.mem_append.mp hq with hq | hq
  · obtain ⟨off, hoff, haddr, hlt⟩ := h.address q hq
    exact ⟨off, recordAt_append_of_some _ hoff, haddr, hlt⟩
  · rw [List.mem_singleton.mp hq]
    refine ⟨st.length, ?_, hi, h.size_eq ▸ hroom⟩
    rw [h.length_eq]
    exact recordAt_append_self ..

/-- **What a run of accepted puts leaves.** -/
theorem grown_of_run {size : ℕ} {ps : List (Record × UInt32)}
    (hrun : Run Accepts (newStore size) ps st)
    (hshort : ∀ p ∈ ps, p.1.key.length + p.1.val.length < 2 ^ 32) : Grown size ps st := by
  have hall : (∀ p ∈ ps, p.1.key.length + p.1.val.length < 2 ^ 32) → Grown size ps st := by
    refine hrun.history (R := fun st ps =>
      (∀ p ∈ ps, p.1.key.length + p.1.val.length < 2 ^ 32) → Grown size ps st)
      (fun _ => ⟨wrote_newStore size, rfl, fun _ h => absurd h List.not_mem_nil⟩) ?_
    intro st ps p st' ih hs hshort
    exact (ih fun q hq => hshort q (List.mem_append_left _ hq)).accepts hs
      (hshort p (List.mem_append_right _ List.mem_cons_self))
  exact hall hshort

/-- **A record behind the first `2 ^ 32` bytes** is returned as the address of another one: a value
that fills these bytes is what is read for the empty pair behind it. -/
theorem exists_wrapped {size : ℕ} (hsize : 2 ^ 32 + 12 < size) : ∃ val st₁ st₂,
    val.length + 12 = 2 ^ 32 ∧ (newStore size).Accepts (⟨[], val⟩, 0) st₁
      ∧ st₁.Accepts (⟨[], []⟩, 0) st₂ ∧ st₂.val 0 = .ok val := by
  obtain ⟨n, hn⟩ : ∃ n, n + 12 = 2 ^ 32 := ⟨2 ^ 32 - 12, rfl⟩
  let big : Record := ⟨[], List.replicate n 0⟩
  have hlen : big.val.length = n := List.length_replicate
  have hbig : big.size = 2 ^ 32 := by
    rw [Record.size, hlen, ← hn]
    exact Nat.add_comm ..
  have hshort : big.key.length + big.val.length < 2 ^ 32 :=
    show 0 + big.val.length < 2 ^ 32 by omega
  have hput₁ : (newStore size).Accepts (big, 0) ((newStore size).append big) :=
    put_eq (show 0 + big.size < size by omega) hshort
  have hlength : ((newStore size).append big).length = 2 ^ 32 := (Nat.zero_add _).trans hbig
  have hput₂ : ((newStore size).append big).Accepts (⟨[], []⟩, 0)
      (((newStore size).append big).append ⟨[], []⟩) := by
    have h := @put_eq ((newStore size).append big) [] []
      (by rw [hlength, Record.size_mk]; exact hsize) (by decide)
    rwa [hlength] at h
  have hat : ((newStore size).append big).RecordAt 0 big :=
    ((wrote_newStore size).append (show 0 + big.size ≤ size by omega) hshort).recordAt
      (recordAt_zero big [])
  exact ⟨big.val, _, _, by omega, hput₁, hput₂, (hat.append (by omega) ⟨[], []⟩).val_eq⟩

/-- **When the word a put returns is an address.**  In a store of `size` bytes every word that an
accepted put returned reads back its key and value, after whatever puts came later, exactly if no
record can start behind the first `2 ^ 32` bytes. -/
theorem addresses_iff (size : ℕ) :
    (∀ ps st, (∀ p ∈ ps, p.1.key.length + p.1.val.length < 2 ^ 32) →
      Run Accepts (newStore size) ps st →
      ∀ p ∈ ps, st.key p.2.toNat = .ok p.1.key ∧ st.val p.2.toNat = .ok p.1.val)
    ↔ size ≤ 2 ^ 32 + 12 := by
  constructor
  · intro hall
    by_contra hlt
    obtain ⟨val, st₁, st₂, hlen, hput₁, hput₂, hval⟩ := exists_wrapped (not_le.mp hlt)
    have hread := (hall [(⟨[], val⟩, 0), (⟨[], []⟩, 0)] st₂ ?_ (.cons hput₁ (.cons hput₂ (.refl _)))
      (⟨[], []⟩, 0) (List.mem_cons_of_mem _ List.mem_cons_self)).2
    · have hnil : val = [] := Except.ok.inj (hval.symm.trans hread)
      rw [hnil] at hlen
      cases hlen
    · simp only [List.forall_mem_cons, List.not_mem_nil, false_implies, implies_true, and_true]
      exact ⟨show 0 + val.length < 2 ^ 32 by omega, by decide⟩
  · intro hsize ps st hshort hrun p hp
    have h := grown_of_run hrun hshort
    obtain ⟨off, hoff, haddr, hlt⟩ := h.address p hp
    have h12 := p.1.twelve_le_size
    have hword : p.2.toNat = off := by
      rw [haddr]
      exact UInt32.toNat_ofNat_of_lt' (show off < 2 ^ 32 by omega)
    have hat := h.toWrote.recordAt hoff
    rw [hword]
    exact ⟨hat.key_eq, hat.val_eq⟩

/-- A store of one byte more. -/
theorem addresses_wrapped : ∃ val st₁ st₂, val.length + 12 = 2 ^ 32
    ∧ (newStore (2 ^ 32 + 13)).Accepts (⟨[], val⟩, 0) st₁ ∧ st₁.Accepts (⟨[], []⟩, 0) st₂
    ∧ st₂.val 0 = .ok val ∧ val ≠ [] := by
  obtain ⟨val, st₁, st₂, hlen, hput₁, hput₂, hval⟩ := @exists_wrapped (2 ^ 32 + 13) (by decide)
  refine ⟨val, st₁, st₂, hlen, hput₁, hput₂, hval, fun hnil => ?_⟩
  rw [hnil] at hlen
  cases hlen

end Store

end Treeless
