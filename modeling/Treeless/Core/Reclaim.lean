import Treeless.Core.Life
import Treeless.PMap.Accounting

/-!
# Core/Reclaim — what a defragmentation frees

    ┌ live ┬ dead ┬ live ┬ dead ┬ live ┐        ┌ live ┬ live ┬ live ┐
    └──────┴──────┴──────┴──────┴──────┘  ──►   └──────┴──────┴──────┘

`Delete` queues a defragmentation when more than a tenth of the bytes in use are counted as deleted
and more than a tenth of the chunk is in use.  The count lags behind the dead bytes and never runs
ahead of them (`Ledger.Honest`), whatever the chunk went through, and what the defragmenter builds
has one record for each pair (`Compact`).  So a defragmentation frees exactly the dead
bytes, and one that is due is not in vain (`life_reclaims`).
-/

namespace Treeless

/-- `Delete` finds the `PMap` worth a defragmentation.  The source divides `float64`s; below 2^50
bytes the rounded quotients are on the same side of 0.1. -/
def PMap.overgrown (c : PMap) : Bool :=
  decide (c.st.length < 10 * c.st.deleted) && decide (c.st.size < 10 * c.st.length)

/-! ## The count -/

namespace Ledger

variable {hash : Bytes → UInt64} {L L' : Ledger} {op : Op} {e : Option Error}

/-- The count is at most the dead bytes. -/
def Honest (L : Ledger) : Prop := ∃ dead, Wastes L.log L.dict dead ∧ L.deleted ≤ dead

theorem honest_new (size : ℕ) : (new size).Honest := ⟨0, wastes_nil, le_rfl⟩

namespace Honest

theorem write (h : L.Honest) (k v : Bytes) : (L.write hash k v).Honest := by
  obtain ⟨dead, hw, hle⟩ := h
  rcases Option.eq_none_or_eq_some (L.dict k) with hk | ⟨old, hk⟩
  · refine ⟨dead, hw.snoc ⟨k, v⟩ (some v) ?_, hle⟩
    rw [entryWeight, hk, Option.elim_none, Option.elim_some, pairSize, add_zero, sub_self, add_zero]
  · refine ⟨dead + (Record.mk k old).size, hw.snoc ⟨k, v⟩ (some v) ?_, hle.trans ?_⟩
    · rw [entryWeight, hk, Option.elim_some, Option.elim_some, pairSize, pairSize, sub_self,
        add_zero, Nat.cast_add]
    · exact Nat.le_add_right ..

/-- A pair removed: it is dead, and counted. -/
theorem erase (h : L.Honest) {k old : Bytes} (hk : L.dict k = some old) (t : Time) :
    (L.erase hash k old t).Honest := by
  obtain ⟨dead, hw, hle⟩ := h
  refine ⟨dead + (Record.mk k old).size, ?_, Nat.add_le_add_right hle _⟩
  have hsum := hw.update k none
  rw [entryWeight, hk, Option.elim_some, Option.elim_none, add_zero, pairSize, sub_sub] at hsum
  rw [Wastes, Nat.cast_add]
  exact hsum

/-- A tombstone is dead, and not counted. -/
theorem bury (h : L.Honest) {k : Bytes} (hk : L.dict k = none) : (L.bury k).Honest := by
  obtain ⟨dead, hw, hle⟩ := h
  refine ⟨dead + (Record.mk k []).size, ?_, hle.trans (Nat.le_add_right ..)⟩
  have hsum : ((dead + (Record.mk k []).size : ℕ) : ℤ)
      = dead + entryWeight pairSize L.dict k + ((Record.mk k []).size - 0) := by
    rw [entryWeight, hk, Option.elim_none, add_zero, sub_zero, Nat.cast_add]
  have hsnoc := hw.snoc ⟨k, []⟩ none hsum
  rwa [Function.update_eq_self_iff.mpr hk.symm] at hsnoc

/-- **One request.** -/
theorem effect (h : L.Honest) (heff : L.Effect hash op e L') : L'.Honest := by
  cases heff with
  | same => exact h
  | set => exact h.write _ _
  | cas => exact h.write _ _
  | spoil => exact h
  | bury hk => exact (h.erase hk _).bury (Function.update_self ..)
  | erase hk => exact h.erase hk _

end Honest

end Ledger

namespace PMap

variable {c c' : PMap} {L : Ledger} {size : ℕ} {evs : List (Op × Option Error)}

/-- The count of a `PMap` is at most its dead bytes. -/
def Honest (c : PMap) : Prop := ∃ dead, c.deadBytes = .ok dead ∧ c.st.deleted ≤ dead

/-- A `PMap` has dead bytes. -/
theorem Denotes.exists_wastes {hash : Bytes → UInt64} {log : List Record} {m : Dict}
    (h : c.Denotes hash log m) : ∃ dead, Wastes log m dead := by
  have hall := sum_filter_add_sum_else (fun p : ℕ × Record => c.Current p.1) (fun p => p.2.size)
    (located 0 log)
  rw [sum_size_located] at hall
  refine ⟨((located 0 log).map fun p => if c.Current p.1 then 0 else p.2.size).sum, ?_⟩
  have htally := tally_currents h.index.files
  rw [Wastes]
  convert htally using 1
  have hcast : ((c.currents log).map fun p => (p.2.size : ℤ)).sum
      = (((c.currents log).map fun p => p.2.size).sum : ℕ) := by
    rw [Nat.cast_list_sum, List.map_map]
    rfl
  rw [hcast, currents]
  omega

/-- The count of the ledger and that of the `PMap`. -/
theorem Refines.honest_iff (h : c.Refines fnv1a64 L) : L.Honest ↔ c.Honest := by
  obtain ⟨dead, hw⟩ := h.toDenotes.exists_wastes
  constructor
  · rintro ⟨dead', hw', hle⟩
    exact ⟨dead', h.toDenotes.deadBytes_eq hw', h.deleted_eq.trans_le hle⟩
  · rintro ⟨dead', hdead', hle⟩
    obtain rfl : dead = dead' :=
      Except.ok.inj ((h.toDenotes.deadBytes_eq hw).symm.trans hdead')
    exact ⟨dead, hw, h.deleted_eq.symm.trans_le hle⟩

/-! ## What the defragmenter builds -/

/-- A ledger of the records `ys`, one for each key. -/
structure Compact (ys : List Record) (L : Ledger) : Prop where
  wastes : Wastes L.log L.dict 0
  deleted_eq : L.deleted = 0
  mem : ∀ k v, L.dict k = some v → ⟨k, v⟩ ∈ ys

theorem compact_new (size : ℕ) : Compact [] (Ledger.new size) :=
  ⟨wastes_nil, rfl, fun _ _ h => (by cases h)⟩

/-- **One `Set`**: a second record of a key is as old as the first, and is not written. -/
theorem Compact.set {ys : List Record} (h : Compact ys L) {r : Record}
    (hsame : ∀ y ∈ ys, y.key = r.key → y.val = r.val) :
    Compact (ys ++ [r]) (L.apply fnv1a64 (setRecord r)) := by
  rcases Option.eq_none_or_eq_some (L.dict r.key) with hk | ⟨old, hk⟩
  · have happly : L.apply fnv1a64 (setRecord r) = L.write fnv1a64 r.key r.val := by
      simp only [setRecord, Ledger.apply, hk]
    rw [happly]
    refine ⟨h.wastes.snoc r (some r.val) ?_, h.deleted_eq, fun k v hv => ?_⟩
    · rw [entryWeight, hk, Option.elim_none, Option.elim_some, pairSize, add_zero, sub_self]
      rfl
    · replace hv : Function.update L.dict r.key (some r.val) k = some v := hv
      by_cases hkk : k = r.key
      · subst hkk
        rw [Function.update_self] at hv
        obtain rfl := Option.some.inj hv
        exact List.mem_append_right _ List.mem_cons_self
      · rw [Function.update_of_ne hkk] at hv
        exact List.mem_append_left _ (h.mem k v hv)
  · obtain rfl : old = r.val := hsame _ (h.mem _ _ hk) rfl
    have happly : L.apply fnv1a64 (setRecord r) = L := by
      simp only [setRecord, Ledger.apply, hk, le_refl, if_true]
    rw [happly]
    exact ⟨h.wastes, h.deleted_eq, fun k v hv => List.mem_append_left _ (h.mem k v hv)⟩

/-- **The `Set`s of records that agree on the value of a key.** -/
theorem Compact.run : ∀ (rest : List Record) {ys : List Record} {L : Ledger}, Compact ys L →
    (∀ y ∈ ys ++ rest, ∀ y' ∈ ys ++ rest, y.key = y'.key → y.val = y'.val) →
    Compact (ys ++ rest) (L.run fnv1a64 (rest.map setRecord))
  | [], ys, L, h, _ => by rwa [List.append_nil]
  | r :: rest, ys, L, h, hsame => by
      have hr : r ∈ ys ++ r :: rest := List.mem_append_right _ List.mem_cons_self
      have h₁ := h.set fun y hy => hsame y (List.mem_append_left _ hy) r hr
      rw [List.append_cons] at hsame ⊢
      exact h₁.run rest hsame

/-- **A defragmentation frees the dead bytes.** -/
theorem Lived.defragment_frees (h : c.Lived size evs L) (ho : Orderly size evs)
    (hsize : size ≤ 2 ^ 28) {path : String} (hx : c.defragment path size = .ok c') {dead : ℕ}
    (hdead : c.deadBytes = .ok dead) :
    c'.st.deleted = 0 ∧ c'.deadBytes = .ok 0 ∧ c'.st.length + dead = c.st.length := by
  have hu := h.undisturbed ho hsize
  have hshown : ∀ y ∈ c.shownRecords L.log, y ∈ L.log ∧ y.val ≠ []
      ∧ L.dict y.key = some y.val := fun y hy => by
    obtain ⟨p, hp, hx, rfl⟩ := mem_shownRecords hy
    obtain ⟨off, -, hr⟩ := recordAt_of_located hp
    exact ⟨mem_of_recordAt hr, hu.tombstones p hp hx,
      h.val_of_shows ho hp (hsize.trans (by decide)) hx⟩
  have hfold := (h.defragment_eq hu.answers path size).symm.trans hx
  have h' := lived_run (hsize.trans (by decide))
    (h.orderly ho fun y hy => ⟨(hshown y hy).1, (hshown y hy).2.1⟩) (run_of_copyRecord hfold)
    fun _ hev => hev
  have hcompact := (compact_new size).run (c.shownRecords L.log) fun y hy y' hy' hkey =>
    Option.some.inj ((hshown y hy).2.2.symm.trans (hkey ▸ (hshown y' hy').2.2))
  -- the dictionary is the same, and so are the bytes of its pairs
  obtain ⟨c₁, L₁, hx₁, h₁, hdict⟩ := h.defragment ho hsize path
  obtain rfl : c' = c₁ := Except.ok.inj (hx.symm.trans hx₁)
  obtain ⟨dead', hw⟩ := h.toDenotes.exists_wastes
  obtain rfl : dead = dead' := Except.ok.inj (hdead.symm.trans (h.toDenotes.deadBytes_eq hw))
  have hlive := hcompact.wastes.eq_of_weight_eq hw fun k => by
    rw [← h'.value_eq, h₁.value_eq, hdict]
  have hlen := h.isLog.length_eq
  have hlen' := h'.isLog.length_eq
  exact ⟨h'.deleted_eq.trans hcompact.deleted_eq, h'.toDenotes.deadBytes_eq hcompact.wastes,
    by omega⟩

/-! ## Lives -/

/-- **One deed** keeps the count honest. -/
theorem Lived.honest (h : c.Lived size evs L) (hc : c.Honest) (ho : Orderly size evs)
    (hsize : size ≤ 2 ^ 28) {deed : Deed} (hev : ∀ ev, deed.asks = some ev → ev ∈ evs)
    (hs : c.Lives deed c') : c'.Honest := by
  have hst : c.st.size = size := h.size_eq.trans h.sized
  cases deed with
  | request op e =>
    have hstep := Answered.step (h.sized.trans_le (hsize.trans (by decide))) h.toRefines hs
    have h' := h.request ho (hsize.trans (by decide)) (hev _ rfl) hs
    exact h'.toRefines.honest_iff.mp
      ((h.toRefines.honest_iff.mpr hc).effect (hstep.effect h.toRefines))
  | defragment path =>
    obtain ⟨dead, hdead, -⟩ := hc
    rw [Lives, hst] at hs
    obtain ⟨hdel, hzero, -⟩ := h.defragment_frees ho hsize hs hdead
    exact ⟨0, hzero, hdel.le⟩
  | reopen path =>
    obtain ⟨dead, hw⟩ := h.toDenotes.exists_wastes
    have hroom := h.room_of_open ho hs
    obtain ⟨c₁, hopen, hdead, hdel, -⟩ := h.toMirrors.open_counts hw (h.size_lt hsize).1
      (by rw [← h.isLog.length_eq, hst]; exact hroom) path
    obtain rfl : c' = c₁ := Except.ok.inj (Eq.trans (Eq.symm hs) hopen)
    exact ⟨dead, hdead, hdel.le⟩

variable {path : String} {deeds : List Deed}

/-- **Every life** keeps the count honest. -/
theorem honest_run (hsize : size ≤ 2 ^ 28) (ho : Orderly size (asked deeds))
    (hrun : Run Lives (new path size) deeds c) :
    c.Honest ∧ ∃ L, c.Lived size (asked deeds) L := by
  refine hrun.invariant_on (P := fun deed => ∀ ev, deed.asks = some ev → ev ∈ asked deeds)
    (I := fun c => c.Honest ∧ ∃ L, c.Lived size (asked deeds) L)
    (fun hev h hs => ?_) (fun deed hdeed ev hask => List.mem_filterMap.mpr ⟨deed, hdeed, hask⟩)
    ⟨(refines_new fnv1a64 path size).honest_iff.mp (Ledger.honest_new size), _,
      lived_new path size _⟩
  obtain ⟨hc, L, hL⟩ := h
  obtain ⟨L', hL', -⟩ := Leads.step ⟨L, hL, rfl⟩ ho hsize hev hs
  exact ⟨hL.honest hc ho hsize hev hs, L', hL'⟩

/-- **A defragmentation frees the dead bytes, and those only.**  Whatever a chunk of at most 256 MiB
went through, requests, defragmentations and reopenings, the bytes it counts as deleted are dead;
defragmented, it has no dead bytes and counts none, it is shorter by the dead bytes it had, and not
due for another defragmentation.  If it was due, more than a hundredth of the chunk is freed. -/
theorem life_reclaims (hsize : size ≤ 2 ^ 28) (hrun : Run Lives (new path size) deeds c)
    (ho : Orderly size (asked deeds)) :
    ∃ dead, c.deadBytes = .ok dead ∧ c.st.deleted ≤ dead
      ∧ ∀ path' c', c.Lives (.defragment path') c' → c'.deadBytes = .ok 0 ∧ c'.st.deleted = 0
        ∧ c'.st.length + dead = c.st.length ∧ c'.overgrown = false
        ∧ (c.overgrown = true → size < 100 * (c.st.length - c'.st.length)) := by
  obtain ⟨⟨dead, hdead, hle⟩, L, hL⟩ := honest_run hsize ho hrun
  have hst : c.st.size = size := hL.size_eq.trans hL.sized
  refine ⟨dead, hdead, hle, fun path' c' hs => ?_⟩
  rw [Lives, hst] at hs
  obtain ⟨hdel, hzero, hlen⟩ := hL.defragment_frees ho hsize hs hdead
  refine ⟨hzero, hdel, hlen, ?_, fun hdue => ?_⟩
  · rw [overgrown, hdel, Bool.and_eq_false_iff]
    exact Or.inl (decide_eq_false (Nat.not_lt_zero _))
  · obtain ⟨hfirst, hsecond⟩ := Bool.and_eq_true_iff.mp hdue
    have hfirst := of_decide_eq_true hfirst
    have hsecond := of_decide_eq_true hsecond
    omega

/-- A pair that is set and deleted: the chunk is due, and is empty when it is defragmented. -/
theorem life_reclaims_deleted : ∃ c c', Run Lives (new "" 100)
      [.request (.set [1] (stamped 900000000000 [7])) none,
        .request (.del [1] (stamped 900000000001 [])) none] c
    ∧ c.overgrown = true ∧ c.Lives (.defragment "") c' ∧ c'.deadBytes = .ok 0
    ∧ 100 < 100 * (c.st.length - c'.st.length) := by
  obtain ⟨c, hrun, hobs⟩ := exists_run fnv1a64 (new "" 100)
    [(.set [1] (stamped 900000000000 [7]), none), (.del [1] (stamped 900000000001 []), none)]
    (fun c => .ok c.overgrown) true (by decide) (by decide +kernel)
  have ho : Orderly 100 [(.set [1] (stamped 900000000000 [7]), none),
      (.del [1] (stamped 900000000001 []), none)] :=
    ⟨by decide +kernel, by decide +kernel, by decide +kernel, fun ev hev h => by
      rcases List.mem_cons.mp hev with rfl | hev
      · cases h
      · obtain rfl := List.mem_singleton.mp hev
        cases h⟩
  have hlives : Run Lives (new "" 100) [.request (.set [1] (stamped 900000000000 [7])) none,
      .request (.del [1] (stamped 900000000001 [])) none] c := by
    cases hrun with
    | cons h₁ hrun =>
      cases hrun with
      | cons h₂ hrun => exact .cons h₁ (.cons h₂ (by cases hrun; exact .refl _))
  have hdue : c.overgrown = true := Except.ok.inj hobs
  obtain ⟨-, L, hL⟩ := honest_run (by decide) ho hlives
  obtain ⟨c', -, hx, -⟩ := hL.defragment ho (by decide) ""
  have hs : c.Lives (.defragment "") c' := by rwa [Lives, hL.size_eq.trans hL.sized]
  obtain ⟨dead, -, -, hall⟩ := life_reclaims (by decide) hlives ho
  obtain ⟨hzero, -, -, -, hfreed⟩ := hall "" c' hs
  exact ⟨c, c', hlives, hdue, hs, hzero, hfreed hdue⟩

end PMap

end Treeless
