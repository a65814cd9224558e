import Treeless.PMap.Puts
import Treeless.PMap.Restore

/-!
# PMap/Scan — the scan of `Open` over any log

    index ──keyLen = 0──▸ stop
      └──▸ restorePair key val index ──▸ index + 12 + totalLen

The end of the log is stored nowhere: the scan stops at the first record boundary where the word of
the key length is zero.  That is the end of the log if four bytes are left there, and the first
record of an empty key otherwise.  Whatever the records are, `restorePair` returns
(`Scanned.restorePair`): a bucket in use points at a record that was scanned before, an array that
is not full has an empty bucket, and the eight bytes it reads of a value end inside the file, unless
the value is the tombstone of the last record and the file ends right behind it.
-/

namespace Treeless

namespace PMap

variable {c : PMap} {st : Store} {log : List Record} {r : Record}

/-- `c` is what the scan has made of the records `log` of the store, whatever they are. -/
structure Scanned (st : Store) (log : List Record) (c : PMap) : Prop where
  ordered : ∃ m, c.Ordered fnv1a64 log m
  file_eq : c.st.file = st.file
  size_eq : c.st.size = st.size
  length_eq : c.st.length = logSize log

theorem Scanned.shows (h : Scanned st log c) {off : ℕ} (hr : st.Shows off r) : c.st.Shows off r :=
  hr.congr (fun _ _ => congrFun h.file_eq _) h.size_eq

/-- The first eight bytes of the value of a record: they are there, or the file ends less than four
bytes behind it. -/
theorem Scanned.first8 (h : Scanned st log c) (r : Record) :
    c.st.first8 ⟨logSize log + 8 + r.key.length, r.val.length⟩
        = .ok (c.st.file.read (logSize log + 8 + r.key.length) 8)
      ∨ (st.size < logSize log + r.size + 4
        ∧ c.st.first8 ⟨logSize log + 8 + r.key.length, r.val.length⟩ = .error .bounds) := by
  have hsize : r.size = 12 + r.key.length + r.val.length := rfl
  by_cases hfits : logSize log + 8 + r.key.length + 8 ≤ c.st.size
  · exact Or.inl (Store.first8_eq hfits)
  · refine Or.inr ⟨by rw [← h.size_eq]; omega, ?_⟩
    rw [Store.first8, Store.sliceOf, if_neg fun hin => hfits hin.2]
    rfl

/-- **`restorePair` returns**, or takes the first eight bytes of a value beyond the file. -/
theorem Scanned.restorePair (h : Scanned st log c) (hr : st.Shows (logSize log) r)
    (haddr : logSize log < 2 ^ 32) :
    (∃ e c' m, c.restorePair r.key ⟨logSize log + 8 + r.key.length, r.val.length⟩
        (UInt32.ofNat (logSize log)) = .ok (e, c') ∧ c'.hm.Files fnv1a64 (log ++ [r]) m)
      ∨ (st.size < logSize log + r.size + 4
        ∧ c.restorePair r.key ⟨logSize log + 8 + r.key.length, r.val.length⟩
          (UInt32.ofNat (logSize log)) = .error .bounds) := by
  obtain ⟨m, ho⟩ := h.ordered
  rw [PMap.restorePair]
  rcases HashMap.checkSpace_eq ho.files.valid.toShaped with ⟨-, hcs⟩ | ⟨-, hm, hcs, hs⟩
  · rw [hcs, Call.ok_bind]
    exact Or.inl ⟨_, _, m, rfl, ho.files.append r⟩
  rw [hcs, Call.ok_bind]
  dsimp only
  have ho' := ho.spaced hs
  cases hk : m r.key with
  | none =>
    obtain ⟨i, hi, hsearch, hf, hl⟩ := ho'.search_empty hk
    rw [hashReMap_eq, hsearch, Call.ok_bind]
    dsimp only [occupy]
    rcases h.first8 r with hnew | ⟨hend, hnew⟩
    · rw [hnew, Call.ok_bind]
      exact Or.inl ⟨_, _, _, rfl, ho'.files.file
        (ho'.files.filed_fill hk hi hf hl (hs.room ho.files.valid) haddr) r.val⟩
    · rw [hnew]
      exact Or.inr ⟨hend, rfl⟩
  | some v =>
    obtain ⟨i, hi, hsearch, hi2, ht⟩ := ho'.search_found hk
    have hold : c.st.first8 ⟨(hm.getStoreIndex i).toNat + 8 + r.key.length, v.length⟩
        = .ok (c.st.file.read ((hm.getStoreIndex i).toNat + 8 + r.key.length) 8) := by
      have hle := add_size_le_of_recordAt ht
      change (hm.getStoreIndex i).toNat + (12 + r.key.length + v.length) ≤ logSize log at hle
      have hfits := (h.shows hr).fits
      exact Store.first8_eq (by omega)
    rw [hashReMap_eq, hsearch, Call.ok_bind]
    dsimp only
    rw [(ho'.shows ht).valSlice_eq, Call.ok_bind]
    rcases h.first8 r with hnew | ⟨hend, hnew⟩
    · rw [hnew, Call.ok_bind, hold, Call.ok_bind]
      split
      · exact Or.inl ⟨_, _, _, rfl, ho'.files.file (ho'.files.filed_point hi hi2 ht haddr) r.val⟩
      · exact Or.inl ⟨_, _, _, rfl, (ho'.files.setDeleted hi hi2 ht).append r⟩
    · rw [hnew]
      exact Or.inr ⟨hend, rfl⟩

theorem next_restoreRecord {index : ℕ} (hat : c.st.RecordAt index r) :
    (c.restoreRecord index).Returns fun p =>
      p.1.st.file = c.st.file ∧ p.1.st.size = c.st.size ∧ p.2 = index + r.size := by
  rw [restoreRecord_eq hat.shows]
  intro p hp
  obtain ⟨q, hq, rfl⟩ := Call.map_eq_ok.mp hp
  obtain ⟨hfile, hsize⟩ := c.file_restorePair _ _ _ _ hq
  exact ⟨hfile, hsize, rfl⟩

/-- **One turn of the scan.** -/
theorem Scanned.restoreRecord (h : Scanned st log c) (hr : st.Shows (logSize log) r)
    (haddr : logSize log < 2 ^ 32) :
    (∃ c', c.restoreRecord (logSize log) = .ok (c', logSize (log ++ [r]))
        ∧ Scanned st (log ++ [r]) c')
      ∨ (st.size < logSize (log ++ [r]) + 4 ∧ c.restoreRecord (logSize log) = .error .bounds) := by
  have hat := h.shows hr
  rw [restoreRecord_eq hat, logSize_snoc]
  rcases h.restorePair hr haddr with ⟨e, c₁, m, hpair, hfiles⟩ | ⟨hend, hpair⟩
  · obtain ⟨hfile, hsize⟩ := c.file_restorePair _ _ _ _ hpair
    have hshows : ∀ {off : ℕ} {r' : Record}, c.st.Shows off r' →
        (c₁.endBehind (logSize log) r).st.Shows off r' := fun h' =>
      h'.congr (fun _ _ => congrFun hfile _) hsize
    rw [hpair]
    refine Or.inl ⟨_, rfl, ⟨m, hfiles, fun off r' hr' => ?_⟩, hfile.trans h.file_eq,
      hsize.trans h.size_eq, (logSize_snoc ..).symm⟩
    rcases recordAt_append_singleton hr' with hr' | ⟨rfl, rfl⟩
    · obtain ⟨m₀, ho⟩ := h.ordered
      exact hshows (ho.readable off r' hr')
    · exact hshows hat
  · rw [hpair]
    exact Or.inr ⟨hend, rfl⟩

theorem room_of_keyLen {index n : ℕ} (h : st.keyLen index = .ok n) : index + 4 ≤ st.size :=
  (Store.holds_of_uint32 h).1

/-- **Whatever file the scan returns from**, it has read it as records, and the word behind the last
one. -/
theorem Scanned.restoreLoop (hsize : st.size ≤ 2 ^ 32) {c' : PMap} :
    ∀ {fuel : ℕ} {log : List Record} {c : PMap}, Scanned st log c →
      PMap.restoreLoop c fuel (logSize log) = .ok c' →
      ∃ log', Scanned st log' c' ∧ logSize log' + 4 ≤ st.size
  | 0, _, _, _, hx => by cases hx
  | fuel + 1, log, c, h, hx => by
      obtain ⟨n, hn, hx⟩ := Call.bind_eq_ok.mp hx
      have hroom := room_of_keyLen hn
      rw [h.size_eq] at hroom
      split at hx
      · cases hx
        exact ⟨log, h, hroom⟩
      · obtain ⟨⟨c₁, next⟩, hrec, hx⟩ := Call.bind_eq_ok.mp hx
        obtain ⟨key, hkey, hrest⟩ := Call.bind_eq_ok.mp hrec
        obtain ⟨s, hval, -⟩ := Call.bind_eq_ok.mp hrest
        obtain ⟨r, hr, -⟩ := Store.exists_shows hkey hval
        have hr' : st.Shows (logSize log) r :=
          hr.congr (fun _ _ => (congrFun h.file_eq _).symm) h.size_eq.symm
        rcases h.restoreRecord hr' (by omega) with ⟨c₂, hrec₂, h₂⟩ | ⟨-, hrec₂⟩
        · obtain ⟨rfl, rfl⟩ := Prod.mk.inj (Except.ok.inj (hrec₂.symm.trans hrec))
          exact h₂.restoreLoop hsize hx
        · cases hrec₂.symm.trans hrec

/-! ## What is passed to `restorePair` -/

/-- The restoring loop, together with the pairs and addresses it passes to `restorePair`. -/
def restoreTrace (c : PMap) : ℕ → ℕ → Call (List (Record × UInt32) × PMap)
  | 0, _ => .error .endless
  | fuel + 1, index => do
    if (← c.st.keyLen index) ≤ 0 then return ([], c)
    else
      let key ← c.st.key index
      let val ← c.st.val index
      let (c, next) ← c.restoreRecord index
      let (passed, c) ← restoreTrace c fuel next
      return ((⟨key, val⟩, UInt32.ofNat index) :: passed, c)

/-- `Open`, together with what it passes to `restorePair`. -/
def openTrace (path : String) (f : File) : Call (List (Record × UInt32) × PMap) :=
  restoreTrace ⟨newHashMap defaultHashMapInitialLog2Size defaultHashMapSizeLimit, openStore f,
    .zero, path⟩ (f.size + 1) 0

/-- **The trace changes nothing.** -/
theorem map_snd_restoreTrace : ∀ (fuel : ℕ) (c : PMap) (index : ℕ),
    Prod.snd <$> restoreTrace c fuel index = restoreLoop c fuel index
  | 0, _, _ => rfl
  | fuel + 1, c, index => by
      rw [restoreTrace, restoreLoop]
      cases c.st.keyLen index with
      | error e => rfl
      | ok len =>
        rw [Call.ok_bind, Call.ok_bind]
        split
        · rfl
        cases hkey : c.st.key index with
        | error e =>
          rw [restoreRecord, hkey]
          rfl
        | ok key =>
          cases hval : c.st.valSlice index with
          | error e =>
            rw [restoreRecord, hkey, Call.ok_bind, Store.val, hval]
            rfl
          | ok val =>
            rw [Call.ok_bind, Store.val, hval]
            change Prod.snd <$> (c.restoreRecord index >>= _) = _
            cases c.restoreRecord index with
            | error e => rfl
            | ok p =>
              obtain ⟨c₁, next⟩ := p
              rw [Call.ok_bind, Call.ok_bind]
              dsimp only
              rw [← map_snd_restoreTrace fuel]
              cases c₁.restoreTrace fuel next <;> rfl

theorem open_of_openTrace {path : String} {f : File} {passed : List (Record × UInt32)} {c' : PMap}
    (h : openTrace path f = .ok (passed, c')) : PMap.open path f = .ok c' := by
  rw [PMap.open, ← map_snd_restoreTrace]
  rw [openTrace] at h
  rw [h]
  rfl

/-- What is passed for the records of a log. -/
def passedFor (base : ℕ) (log : List Record) : List (Record × UInt32) :=
  (located base log).map fun p => (p.2, UInt32.ofNat p.1)

theorem length_passedFor (base : ℕ) (log : List Record) :
    (passedFor base log).length = log.length := by
  rw [passedFor, List.length_map, ← List.length_map, map_snd_located]

/-- **The scan**, if no key is empty: it passes every record and stops at the end of the log, or
fewer than four bytes are left there and it leaves the file. -/
theorem Scanned.restoreTrace {rest : List Record} (h : Scanned st log c)
    (hw : st.Wrote (log ++ rest)) (hkeys : ∀ r ∈ rest, r.key ≠ [])
    (haddr : ∀ off r, Treeless.recordAt (log ++ rest) off = some r → off < 2 ^ 32) {fuel : ℕ}
    (hfuel : rest.length < fuel) :
    (logSize (log ++ rest) + 4 ≤ st.size
        ∧ ∃ c', restoreTrace c fuel (logSize log) = .ok (passedFor (logSize log) rest, c')
          ∧ Scanned st (log ++ rest) c')
      ∨ (st.size < logSize (log ++ rest) + 4
        ∧ restoreTrace c fuel (logSize log) = .error .bounds) := by
  induction rest generalizing log c fuel with
  | nil =>
    obtain ⟨fuel, rfl⟩ := Nat.exists_eq_succ_of_ne_zero (by omega : fuel ≠ 0)
    rw [List.append_nil] at hw ⊢
    rw [PMap.restoreTrace]
    rcases le_or_gt (logSize log + 4) st.size with hroom | hend
    · rw [keyLen_of_zero (h.size_eq ▸ hroom) (h.file_eq ▸ hw.length_eq ▸ hw.zero), Call.ok_bind]
      exact Or.inl ⟨hroom, c, rfl, h⟩
    · have hkey : c.st.keyLen (logSize log) = .error .bounds := by
        rw [Store.keyLen, Store.uint32, Store.sliceOf, headerKeyOffset, h.size_eq,
          if_neg (by omega)]
        rfl
      rw [hkey]
      exact Or.inr ⟨hend, rfl⟩
  | cons r rest ih =>
    obtain ⟨fuel, rfl⟩ := Nat.exists_eq_succ_of_ne_zero (by omega : fuel ≠ 0)
    have hrec := recordAt_append_cons log r rest
    have hshows := (hw.recordAt hrec).shows
    have hat := h.shows hshows
    have hpos : ¬ r.key.length ≤ 0 := fun h0 =>
      hkeys r List.mem_cons_self (List.eq_nil_of_length_eq_zero (Nat.le_zero.mp h0))
    rw [PMap.restoreTrace, hat.keyLen_eq, Call.ok_bind, if_neg hpos, hat.key_eq, Call.ok_bind,
      hat.val_eq, Call.ok_bind]
    rcases h.restoreRecord hshows (haddr _ _ hrec) with ⟨c₁, hturn, h₁⟩ | ⟨hend, hturn⟩
    · rw [hturn, Call.ok_bind]
      rw [List.append_cons] at hw haddr ⊢
      rcases ih h₁ hw (fun r' hr' => hkeys r' (List.mem_cons_of_mem _ hr')) haddr
        (Nat.lt_of_succ_lt_succ hfuel) with ⟨hroom, c', htrace, h'⟩ | ⟨hend, htrace⟩
      · refine Or.inl ⟨hroom, c', ?_, h'⟩
        dsimp only
        rw [htrace, logSize_snoc]
        rfl
      · refine Or.inr ⟨hend, ?_⟩
        dsimp only
        rw [htrace]
        rfl
    · rw [hturn]
      refine Or.inr ⟨?_, rfl⟩
      rw [List.append_cons, logSize_append]
      omega

/-- **An empty key ends the scan** before its record. -/
theorem length_lt_of_restoreTrace {rest : List Record} (hempty : ∃ r ∈ rest, r.key = [])
    {c' : PMap} : ∀ {log : List Record} {c : PMap} {fuel : ℕ} {passed : List (Record × UInt32)},
      st.Wrote (log ++ rest) → c.st.file = st.file → c.st.size = st.size →
      PMap.restoreTrace c fuel (logSize log) = .ok (passed, c') → passed.length < rest.length := by
  induction rest with
  | nil => exact absurd hempty (by simp)
  | cons r rest ih =>
    intro log c fuel passed hw hfile hsize h
    cases fuel with
    | zero => cases h
    | succ fuel =>
      have hat : c.st.RecordAt (logSize log) r :=
        (hw.recordAt (recordAt_append_cons log r rest)).congr hfile hsize
      rw [PMap.restoreTrace, hat.header.keyLen_eq, Call.ok_bind] at h
      split at h
      · cases h
        exact Nat.succ_pos _
      · next hpos =>
        obtain ⟨key, -, h⟩ := Call.bind_eq_ok.mp h
        obtain ⟨val, -, h⟩ := Call.bind_eq_ok.mp h
        obtain ⟨⟨c₁, next⟩, hrec, h⟩ := Call.bind_eq_ok.mp h
        obtain ⟨⟨passed₁, c₂⟩, htrace, h⟩ := Call.bind_eq_ok.mp h
        cases h
        obtain ⟨hfile₁, hsize₁, rfl⟩ := next_restoreRecord hat _ hrec
        have hrest : ∃ r ∈ rest, r.key = [] := by
          obtain ⟨r', hr', hnil⟩ := hempty
          rcases List.mem_cons.mp hr' with rfl | hr'
          · exact absurd (by rw [hnil]; exact le_rfl) hpos
          · exact ⟨r', hr', hnil⟩
        have hnext : logSize log + r.size = logSize (log ++ [r]) := (logSize_snoc ..).symm
        rw [List.append_cons] at hw
        exact Nat.succ_lt_succ
          (ih hrest hw (hfile₁.trans hfile) (hsize₁.trans hsize) (hnext ▸ htrace))

/-- The scan starts with nothing. -/
theorem scanned_start (path : String) (st : Store) : Scanned st []
    ⟨newHashMap defaultHashMapInitialLog2Size defaultHashMapSizeLimit, openStore ⟨st.size, st.file⟩,
      .zero, path⟩ :=
  ⟨⟨_, .new .., fun _ _ h => by cases h⟩, rfl, rfl, rfl⟩

/-- **`Open` replays every record** of the store: each is passed once to `restorePair`, with its
address, and the length is the one at the close.  So later puts change no byte that was in use. -/
def Replays (path : String) (st : Store) (log : List Record) : Prop :=
  ∃ c', openTrace path ⟨st.size, st.file⟩ = .ok (passedFor 0 log, c')
    ∧ PMap.open path ⟨st.size, st.file⟩ = .ok c' ∧ c'.st.length = st.length
    ∧ ∀ p st', p.1.key.length + p.1.val.length < 2 ^ 32 → c'.st.Accepts p st' →
      ∀ a < st.length, st'.file a = st.file a

/-- **`Open` of what was written**, under keys that are not empty: every record is replayed if four
bytes are left, and the scan leaves the file otherwise. -/
theorem open_of_wrote (path : String) (hw : st.Wrote log) (hkeys : ∀ r ∈ log, r.key ≠ [])
    (haddr : ∀ off r, recordAt log off = some r → off < 2 ^ 32) :
    (st.length + 4 ≤ st.size ∧ Replays path st log)
      ∨ (st.size < st.length + 4 ∧ PMap.open path ⟨st.size, st.file⟩ = .error .bounds) := by
  have hfuel : log.length < st.size + 1 :=
    Nat.lt_succ_of_le ((length_le_logSize log).trans (hw.length_eq ▸ hw.fits))
  rw [hw.length_eq]
  rcases (scanned_start path st).restoreTrace hw hkeys haddr hfuel with
    ⟨hroom, c', htrace, hc'⟩ | ⟨hend, htrace⟩
  · have hlength : c'.st.length = st.length := hc'.length_eq.trans hw.length_eq.symm
    refine Or.inl ⟨hroom, c', htrace, open_of_openTrace htrace, hlength,
      fun p st' hshort hs a ha => ?_⟩
    obtain ⟨-, -, rfl⟩ := hs.append hshort
    rw [← hc'.file_eq]
    exact Mem.write_apply_of_outside _ (Or.inl (hlength ▸ ha))
  · refine Or.inr ⟨hend, ?_⟩
    rw [PMap.open, ← map_snd_restoreTrace]
    exact congrArg _ htrace

/-- **When `Open` replays every record.**  After a run of accepted puts that leaves eight bytes:
never if a key is empty; and if none is and every record starts where a 32-bit word addresses it,
always. -/
theorem replays_iff {path : String} {size : ℕ} {ps : List (Record × UInt32)}
    (hrun : Run Store.Accepts (newStore size) ps st)
    (hshort : ∀ p ∈ ps, p.1.key.length + p.1.val.length < 2 ^ 32)
    (hfree : st.length + 8 ≤ st.size) :
    (Replays path st (ps.map Prod.fst) → ∀ p ∈ ps, p.1.key ≠ [])
    ∧ ((∀ p ∈ ps, p.1.key ≠ []) →
      (∀ off r, recordAt (ps.map Prod.fst) off = some r → off < 2 ^ 32) →
      Replays path st (ps.map Prod.fst)) := by
  have hw := (Store.grown_of_run hrun hshort).toWrote
  constructor
  · rintro ⟨c', htrace, -⟩ p hp hnil
    have hlt := length_lt_of_restoreTrace ⟨p.1, List.mem_map_of_mem hp, hnil⟩
      (show st.Wrote ([] ++ ps.map Prod.fst) from hw) rfl rfl htrace
    rw [length_passedFor] at hlt
    exact lt_irrefl _ hlt
  · intro hkeys haddr
    rcases open_of_wrote path hw (List.forall_mem_map.mpr hkeys) haddr with ⟨-, h⟩ | ⟨hend, -⟩
    · exact h
    · omega

/-- Two records, of a pair and of a tombstone. -/
theorem replays_iff_two : ∃ st,
    Run Store.Accepts (newStore 100) [(⟨[1], [7]⟩, 0), (⟨[2], []⟩, 14)] st
    ∧ Replays "" st [⟨[1], [7]⟩, ⟨[2], []⟩] := by
  have hput₁ : (newStore 100).Accepts (⟨[1], [7]⟩, 0) ((newStore 100).append ⟨[1], [7]⟩) :=
    Store.put_eq (by decide) (by decide)
  have hput₂ : ((newStore 100).append ⟨[1], [7]⟩).Accepts (⟨[2], []⟩, 14)
      (((newStore 100).append ⟨[1], [7]⟩).append ⟨[2], []⟩) := Store.put_eq (by decide) (by decide)
  have hrun := Run.cons hput₁ (.cons hput₂ (.refl _))
  refine ⟨_, hrun, (replays_iff hrun (by decide) (by decide)).2 (by decide) fun off r hr => ?_⟩
  exact (Nat.le_of_add_right_le (add_size_le_of_recordAt hr)).trans_lt (by decide)

/-- An empty key ends the scan in front of its record, and the next `put` overwrites it. -/
theorem scan_stops_at_empty_key : ∃ st c' st',
    Run Store.Accepts (newStore 100) [(⟨[], [7]⟩, 0), (⟨[1], [8]⟩, 13)] st
    ∧ st.length = 27 ∧ st.length + 8 ≤ st.size ∧ PMap.open "" ⟨st.size, st.file⟩ = .ok c'
    ∧ c'.st.length = 0 ∧ c'.st.Accepts (⟨[2], [9]⟩, 0) st' ∧ st'.file 0 ≠ st.file 0 := by
  have hput₁ : (newStore 100).Accepts (⟨[], [7]⟩, 0) ((newStore 100).append ⟨[], [7]⟩) :=
    Store.put_eq (by decide) (by decide)
  have hput₂ : ((newStore 100).append ⟨[], [7]⟩).Accepts (⟨[1], [8]⟩, 13)
      (((newStore 100).append ⟨[], [7]⟩).append ⟨[1], [8]⟩) := Store.put_eq (by decide) (by decide)
  exact ⟨_, _, _, .cons hput₁ (.cons hput₂ (.refl _)), rfl, by decide, rfl, rfl,
    Store.put_eq (by decide) (by decide), by decide⟩

end PMap

end Treeless
