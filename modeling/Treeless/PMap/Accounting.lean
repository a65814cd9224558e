import Mathlib.Algebra.Order.BigOperators.Group.List
import Treeless.PMap.Edge

/-!
# PMap/Accounting — the count of deleted bytes

`Deleted` decides with `Used` when a chunk is defragmented.  The running `PMap` counts a pair when a
`Del` removes it, and neither its tombstone nor the pairs that `Set` and `CAS` replace: the count is
short of the dead bytes as soon as there are any (`Ledger.Short`).  `Open` counts them all, but for
the records with a value that find its bucket array full: it does not introduce them, and so they
are dead in what it opens.
-/

namespace Treeless

namespace Ledger

variable {hash : Bytes → UInt64} {L L' : Ledger} {op : Op} {e : Option Error}

/-- Bytes of the log are dead, and the count is short of them. -/
def Short (L : Ledger) : Prop :=
  ∃ dead, Wastes L.log L.dict dead ∧ (L.deleted = dead ∧ dead = 0 ∨ L.deleted < dead)

theorem short_new (size : ℕ) : (new size).Short := ⟨0, wastes_nil, Or.inl ⟨rfl, rfl⟩⟩

namespace Short

/-- A pair written: the one it replaces is dead, and is not counted. -/
theorem write (h : L.Short) (k v : Bytes) : (L.write hash k v).Short := by
  obtain ⟨dead, hw, hcount⟩ := h
  rcases Option.eq_none_or_eq_some (L.dict k) with hk | ⟨old, hk⟩
  · refine ⟨dead, hw.snoc ⟨k, v⟩ (some v) ?_, hcount⟩
    rw [entryWeight, hk, Option.elim_none, Option.elim_some, pairSize, add_zero, sub_self, add_zero]
  · refine ⟨dead + (Record.mk k old).size, hw.snoc ⟨k, v⟩ (some v) ?_, Or.inr ?_⟩
    · rw [entryWeight, hk, Option.elim_some, Option.elim_some, pairSize, pairSize, sub_self,
        add_zero, Nat.cast_add]
    · have h12 := (Record.mk k old).twelve_le_size
      change L.deleted < _
      omega

/-- A pair removed: it is counted, its tombstone is not. -/
theorem bury (h : L.Short) {k old : Bytes} (hk : L.dict k = some old) (t : Time) :
    ((L.erase hash k old t).bury k).Short := by
  obtain ⟨dead, hw, hcount⟩ := h
  refine ⟨dead + (Record.mk k old).size + (Record.mk k []).size, hw.snoc ⟨k, []⟩ none ?_,
    Or.inr ?_⟩
  · rw [entryWeight, hk, Option.elim_some, Option.elim_none, pairSize, sub_zero, Nat.cast_add,
      Nat.cast_add]
  · have h12 := (Record.mk k []).twelve_le_size
    have hsize : (Record.mk k old).size = 12 + k.length + old.length := rfl
    change L.deleted + (12 + k.length + old.length) < _
    omega

/-- **One request**, with no `put` denied. -/
theorem effect (h : L.Short) (heff : L.Effect hash op e L') (hput : e ≠ some .storeLimit) :
    L'.Short := by
  cases heff with
  | same => exact h
  | set => exact h.write _ _
  | cas => exact h.write _ _
  | spoil => exact absurd rfl hput
  | bury hk => exact h.bury hk _
  | erase => exact absurd rfl hput

end Short

end Ledger

namespace PMap

variable {c : PMap} {path : String} {size : ℕ}

/-! ## The count -/

/-- No byte is dead exactly if every record is current. -/
theorem deadBytes_eq_zero_iff {records : List (ℕ × Record)} (h : c.st.records = .ok records)
    {dead : ℕ} (hd : c.deadBytes = .ok dead) : dead = 0 ↔ ∀ p ∈ records, c.Current p.1 := by
  rw [deadBytes, h, Call.ok_bind] at hd
  rw [← Except.ok.inj hd, List.sum_eq_zero_iff, List.forall_mem_map]
  refine forall₂_congr fun p _ => ?_
  have h12 := p.2.twelve_le_size
  constructor
  · intro h0
    by_contra hno
    rw [if_neg hno] at h0
    omega
  · exact fun hcur => if_pos hcur

/-- Records of which none has a value. -/
theorem logSize_valued_eq_zero_iff {log : List Record} :
    logSize (valued log) = 0 ↔ ∀ r ∈ log, r.val = [] := by
  have hnil : logSize (valued log) = 0 ↔ valued log = [] := by
    cases valued log with
    | nil => exact iff_of_true rfl rfl
    | cons r rest =>
      have h12 := r.twelve_le_size
      rw [logSize_cons]
      exact iff_of_false (by omega) (List.cons_ne_nil r rest)
  rw [hnil, valued, List.filter_eq_nil_iff]
  simp

/-- **`Open` counts the dead bytes**, whatever the map it opens counted. -/
theorem Mirrors.open_counts {L : Ledger} {dead : ℕ} (h : c.Mirrors fnv1a64 L)
    (hw : Wastes L.log L.dict dead) (hlimit : c.hm.size < c.hm.sizeLimit)
    (hfree : logSize L.log + 4 ≤ c.st.size) (path : String) :
    ∃ c', PMap.open path c.close = .ok c' ∧ c'.deadBytes = .ok dead ∧ c'.st.deleted = dead
      ∧ c'.st.length = c.st.length := by
  obtain ⟨c', hopen, hc', hw'⟩ := h.open_eq hlimit hfree path
  have hden : c'.Denotes fnv1a64 L.log L.dict := h.dict_eq ▸ hc'.toDenotes
  have hsum := hw'.eq_of_weight_eq hw fun _ => rfl
  exact ⟨c', hopen, hden.deadBytes_eq hw, by omega,
    hc'.isLog.length_eq.trans h.isLog.length_eq.symm⟩

/-- What the requests of a run that bring a timestamp where they must do to the ledger. -/
abbrev ledgerOf (size : ℕ) (evs : List (Op × Option Error)) : Ledger :=
  (Ledger.new size).run fnv1a64 (evs.filter fun ev => ev.1.Timed)

/-- After a run on non-empty keys in which no `put` was denied the log says what the map is, and the
count is short. -/
theorem mirrors_short {evs : List (Op × Option Error)} (hsize : size ≤ 2 ^ 32)
    (hrun : Run (Returned fnv1a64) (new path size) evs c)
    (hevs : ∀ ev ∈ evs, ev.1.key ≠ [] ∧ ev.2 ≠ some .storeLimit) :
    c.Mirrors fnv1a64 (ledgerOf size evs) ∧ (ledgerOf size evs).Short := by
  have hnew := refines_new fnv1a64 path size
  have hsteps := run_step hsize (run_answered hsize hrun hnew rfl) hnew rfl
  have hfilter : ∀ ev ∈ evs.filter fun ev => ev.1.Timed,
      ev.1.key ≠ [] ∧ ev.2 ≠ some .storeLimit := fun ev hev => hevs ev (List.mem_of_mem_filter hev)
  exact ⟨mirrors_run hsteps hfilter,
    (hsteps.simulates_on (R := fun c L => c.Refines fnv1a64 L ∧ L.Short)
      (fun hev hR hs => ⟨(hs.refines hR.1).2.1, hR.2.effect (hs.effect hR.1) hev.2⟩) hfilter
      ⟨hnew, Ledger.short_new size⟩).2⟩

/-- **Space accounting.**  After every run on non-empty keys in which no `put` was denied, the count
is the number of dead bytes exactly if every record is current, and then there are none.  What
`Open` makes of the file counts its dead bytes exactly if the records that found the bucket array
full are all tombstones; and they are those of the map that was closed, if its array is below the
limit. -/
theorem deleted_eq_dead_iff {evs : List (Op × Option Error)} (hsize : size ≤ 2 ^ 32)
    (hrun : Run (Returned fnv1a64) (new path size) evs c)
    (hevs : ∀ ev ∈ evs, ev.1.key ≠ [] ∧ ev.2 ≠ some .storeLimit) :
    ∃ records dead, c.st.records = .ok records ∧ c.deadBytes = .ok dead
      ∧ (c.st.deleted = dead ↔ ∀ p ∈ records, c.Current p.1)
      ∧ ∀ c', PMap.open path c.close = .ok c' → c'.st.length = c.st.length
        ∧ (∃ dead', c'.deadBytes = .ok dead' ∧ (c'.st.deleted = dead'
          ↔ ∀ r ∈ Replay.unread fnv1a64 .start (records.map Prod.snd), r.val = []))
        ∧ (c.hm.size < c.hm.sizeLimit → c'.deadBytes = .ok dead ∧ c'.st.deleted = dead) := by
  obtain ⟨h, dead, hw, hcount⟩ := mirrors_short hsize hrun hevs
  generalize ledgerOf size evs = L at h hw hcount
  have hdead := h.deadBytes_eq hw
  refine ⟨located 0 L.log, dead, h.isLog.records_eq, hdead, ?_, fun c' hopen => ?_⟩
  · rw [← deadBytes_eq_zero_iff h.isLog.records_eq hdead, h.deleted_eq]
    omega
  · have hroom : logSize L.log + 4 ≤ c.st.size := by
      rw [← h.isLog.length_eq]
      rcases open_of_run hrun (fun ev hev => (hevs ev hev).1) h.isLog.addressable path with
        ⟨hroom, -⟩ | ⟨-, hfault⟩
      · exact hroom
      · cases hfault.symm.trans hopen
    obtain ⟨c₁, hopen₁, hlen, hdead'⟩ := h.open_deadBytes hroom path
    obtain rfl : c' = c₁ := Except.ok.inj (hopen.symm.trans hopen₁)
    refine ⟨hlen, ⟨_, hdead', ?_⟩, fun hlimit => ?_⟩
    · rw [map_snd_located, ← logSize_valued_eq_zero_iff]
      omega
    · obtain ⟨c₂, hopen₂, hcounts⟩ := h.open_counts hw hlimit hroom path
      obtain rfl : c' = c₂ := Except.ok.inj (hopen.symm.trans hopen₂)
      exact ⟨hcounts.1, hcounts.2.1⟩

/-- Three keys, set once: their records are current, and what is opened counts nothing.  And three
keys of which one is deleted: the tombstone is not counted, and what is opened counts both. -/
theorem deleted_eq_dead_iff_three :
    (∃ c records c', Run (Returned fnv1a64) (new "" 100)
        [(.set [1] (stamped 5 [7]), none), (.set [2] (stamped 5 [8]), none),
          (.set [3] (stamped 5 [9]), none)] c
      ∧ c.st.records = .ok records ∧ records.length = 3 ∧ (∀ p ∈ records, c.Current p.1)
      ∧ PMap.open "" c.close = .ok c' ∧ c'.deadBytes = .ok 0 ∧ c'.st.deleted = 0)
    ∧ ∃ c c', Run (Returned fnv1a64) (new "" 100)
        [(.set [1] (stamped 5 [7]), none), (.set [2] (stamped 5 [8]), none),
          (.del [1] (stamped 6 []), none), (.set [3] (stamped 5 [9]), none)] c
      ∧ c.deadBytes = .ok 35 ∧ c.st.deleted = 22
      ∧ PMap.open "" c.close = .ok c' ∧ c'.deadBytes = .ok 35 ∧ c'.st.deleted = 35 := by
  have h₁ : Wastes _ _ 0 := wastes_nil.snoc ⟨[1], stamped 5 [7]⟩ (some (stamped 5 [7])) (by decide)
  have h₂ : Wastes _ _ 0 := h₁.snoc ⟨[2], stamped 5 [8]⟩ (some (stamped 5 [8])) (by decide)
  constructor
  · obtain ⟨c, hrun, hobs⟩ := exists_run fnv1a64 (new "" 100)
      [(.set [1] (stamped 5 [7]), none), (.set [2] (stamped 5 [8]), none),
        (.set [3] (stamped 5 [9]), none)]
      (fun c => .ok (c.st.deleted, c.hm.size, c.hm.sizeLimit, c.st.length, c.st.size))
      (0, 65536, 67108864, 66, 100) (by decide) (by decide +kernel)
    simp only [Except.ok.injEq, Prod.mk.injEq] at hobs
    obtain ⟨hdel, hs, hl, hn, hz⟩ := hobs
    have hret := hrun.mono fun h => h.2
    have hw : Wastes _ _ 0 := h₂.snoc ⟨[3], stamped 5 [9]⟩ (some (stamped 5 [9])) (by decide)
    have h := (mirrors_short (by decide) hret (by decide)).1
    obtain ⟨records, dead, hrec, hd, hiff, hopened⟩ :=
      deleted_eq_dead_iff (by decide) hret (by decide)
    obtain rfl : dead = 0 := Except.ok.inj (hd.symm.trans (h.deadBytes_eq hw))
    obtain ⟨c', hopen, -⟩ := h.open_deadBytes (by rw [← h.isLog.length_eq]; omega) ""
    obtain ⟨-, -, hcounts⟩ := hopened c' hopen
    have hthree := Except.ok.inj (hrec.symm.trans h.isLog.records_eq)
    exact ⟨c, records, c', hret, hrec, by rw [hthree]; rfl, hiff.mp hdel, hopen,
      hcounts (by omega)⟩
  · obtain ⟨c, hrun, hobs⟩ := exists_run fnv1a64 (new "" 100)
      [(.set [1] (stamped 5 [7]), none), (.set [2] (stamped 5 [8]), none),
        (.del [1] (stamped 6 []), none), (.set [3] (stamped 5 [9]), none)]
      (fun c => .ok (c.st.deleted, c.hm.size, c.hm.sizeLimit, c.st.length, c.st.size))
      (22, 65536, 67108864, 79, 100) (by decide) (by decide +kernel)
    simp only [Except.ok.injEq, Prod.mk.injEq] at hobs
    obtain ⟨hdel, hs, hl, hn, hz⟩ := hobs
    have hret := hrun.mono fun h => h.2
    have h₃ : Wastes _ _ 35 := h₂.snoc ⟨[1], []⟩ none (by decide)
    have hw : Wastes _ _ 35 := h₃.snoc ⟨[3], stamped 5 [9]⟩ (some (stamped 5 [9])) (by decide)
    have h := (mirrors_short (by decide) hret (by decide)).1
    obtain ⟨records, dead, hrec, hd, -, hopened⟩ :=
      deleted_eq_dead_iff (by decide) hret (by decide)
    obtain rfl : dead = 35 := Except.ok.inj (hd.symm.trans (h.deadBytes_eq hw))
    obtain ⟨c', hopen, -⟩ := h.open_deadBytes (by rw [← h.isLog.length_eq]; omega) ""
    obtain ⟨-, -, hcounts⟩ := hopened c' hopen
    exact ⟨c, c', hret, hd, hdel, hopen, hcounts (by omega)⟩

/-- **The running map does not count what `Set` replaces.**  Of one key set twice the first record
is dead, and `Deleted` is zero; the file of this very map, opened, counts it. -/
theorem set_leaves_dead_uncounted : ∃ c c',
    Run (Returned fnv1a64) (new "" 100)
      [(.set [1] (stamped 5 [7]), none), (.set [1] (stamped 6 [8]), none)] c
    ∧ c.deadBytes = .ok 22 ∧ c.st.deleted = 0
    ∧ PMap.open "" c.close = .ok c' ∧ c'.deadBytes = .ok 22 ∧ c'.st.deleted = 22 := by
  obtain ⟨c, hrun, hobs⟩ := exists_run fnv1a64 (new "" 100)
    [(.set [1] (stamped 5 [7]), none), (.set [1] (stamped 6 [8]), none)]
    (fun c => .ok (c.st.deleted, c.hm.size, c.hm.sizeLimit, c.st.length, c.st.size))
    (0, 65536, 67108864, 44, 100) (by decide) (by decide +kernel)
  obtain ⟨hdel, hobs⟩ := Prod.mk.inj (Except.ok.inj hobs)
  obtain ⟨hs, hobs⟩ := Prod.mk.inj hobs
  obtain ⟨hl, hobs⟩ := Prod.mk.inj hobs
  obtain ⟨hn, hz⟩ := Prod.mk.inj hobs
  have hret := hrun.mono fun h => h.2
  have h := (mirrors_short (by decide) hret (by decide)).1
  have h₁ : Wastes _ _ 0 := wastes_nil.snoc ⟨[1], stamped 5 [7]⟩ (some (stamped 5 [7])) (by decide)
  have hw : Wastes _ _ 22 :=
    h₁.snoc ⟨[1], stamped 6 [8]⟩ (some (stamped 6 [8])) (by decide)
  obtain ⟨c', hopen, hcounts⟩ := h.open_counts hw (by omega)
    (by rw [← h.isLog.length_eq]; omega) ""
  exact ⟨c, c', hret, h.deadBytes_eq hw, hdel, hopen, hcounts.1, hcounts.2.1⟩

end PMap

end Treeless
