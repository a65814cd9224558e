import Treeless.PMap.Replay
import Treeless.PMap.Space

/-!
# PMap/Restore — opening the file a closed `PMap` left

`Open` reads the records of the file one after the other.  After the records `log` its `PMap` is
what a reader of `log` knows (`Restored`); each turn of the loop reads one record more
(`restoreRecord_spec`), and the zero bytes behind the last one end it.
-/

namespace Treeless

namespace PMap

open HashMap (Spaced)

variable {f : File} {log : List Record} {c : PMap} {r : Record}

/-! ## One turn of the loop -/

/-- What `restorePair` does to the store is to count. -/
theorem file_restorePair (c : PMap) (key : Bytes) (value : Slice) (storeIndex : UInt32) :
    (c.restorePair key value storeIndex).Returns fun p =>
      p.2.st.file = c.st.file ∧ p.2.st.size = c.st.size := by
  unfold restorePair
  refine .bind fun space => ?_
  split
  · exact .ok ⟨rfl, rfl⟩
  refine .bind fun slot => ?_
  split
  · exact .bind fun _ => .ok ⟨rfl, rfl⟩
  · refine .bind fun v => .bind fun new => .bind fun old => ?_
    split <;> exact .ok ⟨rfl, rfl⟩

/-- The store ends behind the record at `index`; a tombstone is counted. -/
def endBehind (c : PMap) (index : ℕ) (r : Record) : PMap :=
  { c with st := { c.st with
    deleted := c.st.deleted + (if r.val = [] then r.size else 0)
    length := index + r.size } }

/-- **A turn of the loop is `restorePair`**, and then the store ends behind the record. -/
theorem restoreRecord_eq {index : ℕ} (hat : c.st.Shows index r) : c.restoreRecord index
    = (c.restorePair r.key ⟨index + 8 + r.key.length, r.val.length⟩ (UInt32.ofNat index)).map
      fun p => (p.2.endBehind index r, index + r.size) := by
  rw [restoreRecord, hat.key_eq, Call.ok_bind, hat.valSlice_eq, Call.ok_bind]
  cases hpair : c.restorePair r.key ⟨index + 8 + r.key.length, r.val.length⟩
      (UInt32.ofNat index) with
  | error f => rfl
  | ok p =>
    obtain ⟨hfile, hsize⟩ := c.file_restorePair _ _ _ _ hpair
    have hshows : ∀ n, ({ p.2.st with deleted := n } : Store).Shows index r := fun n =>
      hat.congr (fun _ _ => congrFun hfile _) hsize
    have hnext : index + (12 + (r.key.length + r.val.length)) = index + r.size := by
      rw [Record.size, Nat.add_assoc 12]
    rw [Call.ok_bind]
    dsimp only
    by_cases hnil : r.val = []
    · rw [if_neg (by rw [hnil]; decide), (hshows _).totalLen_eq, Call.ok_bind, hnext]
      dsimp only [Except.map, endBehind]
      rw [if_pos hnil, Record.size, hnil]
      rfl
    · rw [if_pos (List.length_pos_iff.mpr hnil), (hshows p.2.st.deleted).totalLen_eq,
        Call.ok_bind, hnext]
      dsimp only [Except.map, endBehind]
      rw [if_neg hnil]
      rfl

/-- The word behind the last record, if there are only zeros. -/
theorem keyLen_of_zero {st : Store} {off : ℕ} (hroom : off + 4 ≤ st.size)
    (hzero : ∀ i, off ≤ i → st.file i = 0) : st.keyLen off = .ok 0 := by
  refine Store.uint32_of_holds (by decide) ?_ hroom
  exact (show Mem.Holds (fun _ => 0) off (leBytes 4 0) from rfl).congr fun i hi _ =>
    (hzero i hi).symm

/-! ## What the loop knows -/

/-- `c` is what the restoring loop has made of the records `log` of the file. -/
structure Restored (f : File) (log : List Record) (c : PMap) : Prop
    extends c.Denotes fnv1a64 log (replay fnv1a64 log).dict where
  file_eq : c.st.file = f.bytes
  size_eq : c.st.size = f.size
  sum_eq : c.checksum.newChecksum = (replay fnv1a64 log).sum
  log2_eq : c.hm.sizelog2 = (replay fnv1a64 log).log2
  stored_eq : c.hm.numStoredKeys = (replay fnv1a64 log).stored

/-- The check for space does what the reader does, below the size limit. -/
theorem Restored.checkSpace (h : Restored f log c)
    (hlevel : (replay fnv1a64 log).space.log2 ≤ 26) :
    ∃ hm, c.hm.checkSpace = .ok (.ok hm) ∧ Spaced c.hm hm
      ∧ hm.sizelog2 = (replay fnv1a64 log).space.log2
      ∧ hm.numStoredKeys = (replay fnv1a64 log).space.stored := by
  have hshape := h.index.valid.toShaped
  have hcap := hshape.full_eq_capacity
  rw [Replay.space, ← h.log2_eq, ← h.stored_eq, ← hcap] at hlevel ⊢
  rcases HashMap.checkSpace_eq hshape with ⟨hfull, -⟩ | ⟨-, hm, hcs, hs⟩
  · obtain ⟨hst, hlim⟩ := of_decide_eq_true hfull
    rw [if_pos hst] at hlevel
    dsimp only at hlevel
    have hpow : 2 ^ (c.hm.sizelog2 + 1) ≤ 2 ^ 26 := Nat.pow_le_pow_right (by decide) hlevel
    rw [h.index.limit_eq, hshape.size_eq, ← pow_succ, defaultHashMapSizeLimit] at hlim
    omega
  · refine ⟨hm, hcs, hs, ?_⟩
    rcases hs with ⟨hlt, rfl⟩ | ⟨hge, -, hN⟩
    · rw [if_neg (not_le.mpr hlt)]
      exact ⟨h.log2_eq, h.stored_eq⟩
    · rw [if_pos hge]
      exact ⟨hN.log2_eq, hN.liveCount_eq.trans h.index.liveCount_eq⟩

/-- **The pair of the next record, introduced into the index.** -/
theorem restorePair_spec (h : Restored f log c) (hat : c.st.RecordAt (logSize log) r)
    (hfit : logSize log + r.size + 4 ≤ c.st.size) (haddr : logSize log < 2 ^ 32)
    (hr : (replay fnv1a64 log).Proper r)
    (hlevel : (replay fnv1a64 log).space.log2 ≤ 26) :
    ∃ c', c.restorePair r.key ⟨logSize log + 8 + r.key.length, r.val.length⟩
        (UInt32.ofNat (logSize log)) = .ok (none, c')
      ∧ c'.hm.Indexes fnv1a64 (log ++ [r]) ((replay fnv1a64 log).step fnv1a64 r).dict
      ∧ c'.st.file = c.st.file ∧ c'.st.size = c.st.size ∧ c'.st.length = c.st.length
      ∧ c'.checksum.newChecksum = ((replay fnv1a64 log).step fnv1a64 r).sum
      ∧ c'.hm.sizelog2 = ((replay fnv1a64 log).step fnv1a64 r).log2
      ∧ c'.hm.numStoredKeys = ((replay fnv1a64 log).step fnv1a64 r).stored
      ∧ (c'.st.deleted : ℤ)
        = c.st.deleted + entryWeight pairSize (replay fnv1a64 log).dict r.key := by
  obtain ⟨hm, hcs, hs, hlog2, hstored⟩ := h.checkSpace hlevel
  have h₁ := h.toDenotes.spaced hs
  have hfree := hs.room h.index.valid
  rw [restorePair, hcs, Call.ok_bind]
  dsimp only
  rw [hashReMap_eq fnv1a64 r.key, Replay.log2_step, Replay.stored_step]
  obtain ⟨k, v⟩ := r
  dsimp only
  rcases Option.eq_none_or_eq_some ((replay fnv1a64 log).dict k) with hk | ⟨old, hk⟩
  · have hv : 8 ≤ v.length := hr.2.resolve_right fun h0 => h0.2 hk
    obtain ⟨i, hi, hsearch, hf, hl⟩ := h₁.search_empty hk
    rw [hsearch, Call.ok_bind]
    dsimp only [occupy]
    rw [hat.first8_eq hv, Call.ok_bind]
    refine ⟨_, rfl, ?_, rfl, rfl, rfl, ?_, hlog2, ?_, ?_⟩
    · simp only [Replay.step, hk]
      exact h₁.index.fill hv hk hi hf hl hfree haddr
    · simp only [Replay.step, hk, SyncChecksum.newChecksum_sum, uint64_take, h.sum_eq]
    · rw [if_pos hk, ← hstored]
      rfl
    · rw [entryWeight, hk]
      exact (add_zero _).symm
  · obtain ⟨i, hi, hsearch, hi2, hr'⟩ := h₁.search_found hk
    obtain ⟨s, hslice, hlen, -, -, hold, -⟩ := h₁.readValue hi hi2 hr'
    have hstored' : hm.numStoredKeys = (replay fnv1a64 log).space.stored
        + if (replay fnv1a64 log).dict k = none then 1 else 0 := by
      rw [hk, if_neg (Option.some_ne_none _), hstored, Nat.add_zero]
    have hdead : ((c.st.deleted + (12 + k.length + s.len) : ℕ) : ℤ)
        = c.st.deleted + entryWeight pairSize (replay fnv1a64 log).dict k := by
      rw [entryWeight, hk, hlen, Nat.cast_add]
      rfl
    rw [hsearch, Call.ok_bind]
    dsimp only at hslice hold ⊢
    rw [hslice, Call.ok_bind]
    rcases hr.2 with hv | ⟨hv, -⟩
    · -- an overwritten pair
      have hne : v ≠ [] := fun h0 => by
        dsimp only at hv
        rw [h0] at hv
        exact absurd hv (by decide)
      rw [hat.first8_eq hv, Call.ok_bind, hold, Call.ok_bind, if_pos (by dsimp only at hv; omega)]
      refine ⟨_, rfl, ?_, rfl, rfl, rfl, ?_, hlog2, hstored', hdead⟩
      · simp only [Replay.step, hk, if_neg hne]
        exact h₁.index.point hv hi hi2 hr' haddr
      · simp only [Replay.step, hk, if_neg hne, pointTo, SyncChecksum.newChecksum_sum,
          SyncChecksum.newChecksum_sub, uint64_take, h.sum_eq]
    · -- a tombstone: the eight bytes read behind its key are of no account
      dsimp only at hv
      subst hv
      have hroom : logSize log + 8 + k.length + 8 ≤ c.st.size := by
        rw [Record.size_mk] at hfit
        omega
      rw [Store.first8_eq hroom, Call.ok_bind, hold, Call.ok_bind, if_neg (by decide)]
      refine ⟨_, rfl, ?_, rfl, rfl, rfl, ?_, hlog2, hstored', hdead⟩
      · simp only [Replay.step, hk, if_true]
        exact (h₁.index.setDeleted hi hi2 hr').tombstone (Function.update_self _ _ _) []
      · simp only [Replay.step, hk, if_true, markDeleted, SyncChecksum.newChecksum_sub, uint64_take,
          h.sum_eq, UInt64.add_zero]

/-- **One turn of the loop** reads one record more. -/
theorem restoreRecord_spec (h : Restored f log c) (hat : c.st.RecordAt (logSize log) r)
    (hfit : logSize log + r.size + 4 ≤ f.size) (haddr : logSize log + r.size ≤ 2 ^ 32)
    (hr : (replay fnv1a64 log).Proper r)
    (hlevel : (replay fnv1a64 (log ++ [r])).log2 ≤ 26) :
    ∃ c', c.restoreRecord (logSize log) = .ok (c', logSize (log ++ [r]))
      ∧ Restored f (log ++ [r]) c'
      ∧ (Wastes log (replay fnv1a64 log).dict c.st.deleted →
        Wastes (log ++ [r]) (replay fnv1a64 (log ++ [r])).dict c'.st.deleted) := by
  have h12 := r.twelve_le_size
  have hsz := h.size_eq
  rw [replay_snoc, Replay.log2_step] at hlevel
  obtain ⟨c₁, hpair, hindex, hfile, hsize, hlen, hsum, hlog2, hstored, hdead⟩ :=
    restorePair_spec h hat (by omega) (by omega) hr hlevel
  have hholds : c.st.file.Holds c.st.length r.encode := h.isLog.length_eq ▸ hat.holds
  have hlog := h.isLog.advance hholds (by rw [h.isLog.length_eq]; omega)
    (by rw [h.isLog.length_eq]; exact haddr)
  rw [restoreRecord_eq hat.shows, hpair, logSize_snoc]
  refine ⟨c₁.endBehind (logSize log) r, rfl, ⟨⟨?_, ?_⟩, hfile.trans h.file_eq,
    hsize.trans h.size_eq, ?_, ?_, ?_⟩, fun hw => ?_⟩
  · rw [replay_snoc]
    exact hindex
  · exact hlog.congr (congrArg (· + r.size) h.isLog.length_eq.symm) hfile hsize
  · rw [replay_snoc]
    exact hsum
  · rw [replay_snoc]
    exact hlog2
  · rw [replay_snoc]
    exact hstored
  · rw [replay_snoc, Replay.dict_step hr]
    refine hw.snoc r _ ?_
    dsimp only [endBehind]
    rw [Nat.cast_add, hdead]
    split
    · rw [Option.elim_none, sub_zero]
    · rw [Option.elim_some, pairSize, Nat.cast_zero, sub_self]

/-- The record at which the loop is. -/
theorem recordAt_of_holds {rest : List Record}
    (hfile : c.st.file = f.bytes) (hsize : c.st.size = f.size)
    (hlog : f.bytes.Holds 0 ((log ++ r :: rest).flatMap Record.encode))
    (hfit : logSize (log ++ r :: rest) + 4 ≤ f.size)
    (haddr : logSize (log ++ r :: rest) ≤ 2 ^ 32) : c.st.RecordAt (logSize log) r := by
  have hle := add_size_le_of_recordAt (recordAt_append_cons log r rest)
  have hholds := Store.holds_of_recordAt hlog (recordAt_append_cons log r rest)
  rw [Nat.zero_add, ← hfile] at hholds
  refine ⟨hholds, by rw [hsize]; omega, ?_⟩
  rw [Record.size] at hle
  omega

/-- **The loop goes on** behind the record of a key. -/
theorem restoreLoop_step {c₁ : PMap} {index index' : ℕ} (hat : c.st.RecordAt index r)
    (hkey : r.key ≠ []) (hrec : c.restoreRecord index = .ok (c₁, index')) (fuel : ℕ) :
    restoreLoop c (fuel + 1) index = restoreLoop c₁ fuel index' := by
  have hpos : ¬ r.key.length ≤ 0 := fun h0 =>
    hkey (List.eq_nil_of_length_eq_zero (Nat.le_zero.mp h0))
  rw [restoreLoop, hat.header.keyLen_eq, Call.ok_bind, if_neg hpos, hrec, Call.ok_bind]

/-- **The loop stops** at the zero word behind the last record. -/
theorem restoreLoop_end {index : ℕ} (hroom : index + 4 ≤ c.st.size)
    (hzero : ∀ i, index ≤ i → c.st.file i = 0) (fuel : ℕ) :
    restoreLoop c (fuel + 1) index = .ok c := by
  rw [restoreLoop, keyLen_of_zero hroom hzero, Call.ok_bind]
  rfl

/-- **The loop up to a record** reads those before it. -/
theorem Restored.restoreLoop_walk {rest : List Record} (h : Restored f log c)
    (hlog : f.bytes.Holds 0 ((log ++ rest).flatMap Record.encode))
    (hfit : logSize (log ++ rest) + 4 ≤ f.size) (haddr : logSize (log ++ rest) ≤ 2 ^ 32)
    (hreads : Replay.Reads fnv1a64 (replay fnv1a64 log) rest)
    (hlevel : (replay fnv1a64 (log ++ rest)).log2 ≤ 26) (fuel : ℕ) :
    ∃ c', restoreLoop c (rest.length + fuel) (logSize log)
        = restoreLoop c' fuel (logSize (log ++ rest)) ∧ Restored f (log ++ rest) c'
      ∧ (Wastes log (replay fnv1a64 log).dict c.st.deleted →
        Wastes (log ++ rest) (replay fnv1a64 (log ++ rest)).dict c'.st.deleted) := by
  induction rest generalizing log c with
  | nil =>
    rw [List.append_nil, List.length_nil, Nat.zero_add]
    exact ⟨c, rfl, h, id⟩
  | cons r rest ih =>
    have hat := recordAt_of_holds h.file_eq h.size_eq hlog hfit haddr
    have hsize := add_size_le_of_recordAt (recordAt_append_cons log r rest)
    have hnext : (replay fnv1a64 (log ++ [r])).log2 ≤ 26 := by
      rw [List.append_cons, replay, List.foldl_append] at hlevel
      exact (Replay.log2_le_foldl _ rest).trans hlevel
    obtain ⟨c₁, hrec, h₁, hw₁⟩ := restoreRecord_spec h hat (by omega) (by omega) hreads.1 hnext
    have hreads₁ : Replay.Reads fnv1a64 (replay fnv1a64 (log ++ [r])) rest := by
      rw [replay_snoc]
      exact hreads.2
    rw [List.append_cons] at hlog hfit haddr hlevel ⊢
    rw [List.length_cons, Nat.succ_add, restoreLoop_step hat hreads.1.1 hrec]
    obtain ⟨c', hloop, h', hw'⟩ := ih h₁ hlog hfit haddr hreads₁ hlevel
    exact ⟨c', hloop, h', hw' ∘ hw₁⟩

/-- **The loop** reads every record, and stops behind the last. -/
theorem restoreLoop_spec {rest : List Record} (h : Restored f log c)
    (hlog : f.bytes.Holds 0 ((log ++ rest).flatMap Record.encode))
    (hfit : logSize (log ++ rest) + 4 ≤ f.size) (haddr : logSize (log ++ rest) ≤ 2 ^ 32)
    (hreads : Replay.Reads fnv1a64 (replay fnv1a64 log) rest)
    (hlevel : (replay fnv1a64 (log ++ rest)).log2 ≤ 26)
    (hzero : ∀ i, logSize (log ++ rest) ≤ i → f.bytes i = 0) {fuel : ℕ}
    (hfuel : rest.length < fuel) :
    ∃ c', restoreLoop c fuel (logSize log) = .ok c' ∧ Restored f (log ++ rest) c'
      ∧ (Wastes log (replay fnv1a64 log).dict c.st.deleted →
        Wastes (log ++ rest) (replay fnv1a64 (log ++ rest)).dict c'.st.deleted) := by
  obtain ⟨n, rfl⟩ := Nat.exists_eq_add_of_lt hfuel
  obtain ⟨c', hwalk, h', hw⟩ := h.restoreLoop_walk hlog hfit haddr hreads hlevel (n + 1)
  refine ⟨c', ?_, h', hw⟩
  rw [Nat.add_assoc, hwalk]
  exact restoreLoop_end (h'.size_eq ▸ hfit) (h'.file_eq ▸ hzero) n

/-! ## Records that find the array full -/

/-- `c` is what the restoring loop has made of the records `log`, with an array that is full and
has the pairs `m`. -/
structure Stuck (f : File) (log : List Record) (m : Dict) (c : PMap) : Prop where
  files : c.hm.Files fnv1a64 log m
  isLog : c.st.IsLog log
  file_eq : c.st.file = f.bytes
  size_eq : c.st.size = f.size
  full : c.hm.checkSpace = .ok (.error .hashMapLimit)

theorem Restored.stuck (h : Restored f log c) (hfull : (replay fnv1a64 log).Full) :
    Stuck f log (replay fnv1a64 log).dict c := by
  refine ⟨h.index.files, h.isLog, h.file_eq, h.size_eq, ?_⟩
  have hshape := h.index.valid.toShaped
  obtain ⟨hlevel, hst⟩ := hfull
  rw [← h.log2_eq] at hlevel hst
  rw [← h.stored_eq, ← hshape.full_eq_capacity] at hst
  rcases HashMap.checkSpace_eq hshape with ⟨-, hcs⟩ | ⟨hno, -⟩
  · exact hcs
  · have hpow : 2 ^ 26 ≤ 2 ^ c.hm.sizelog2 := Nat.pow_le_pow_right (by decide) hlevel
    have hlim : c.hm.sizeLimit < c.hm.size * 2 := by
      rw [h.index.limit_eq, hshape.size_eq, defaultHashMapSizeLimit]
      omega
    exact absurd ⟨hst, hlim⟩ (of_decide_eq_false hno)

/-- **One turn of the loop** passes over the record; a tombstone is counted. -/
theorem Stuck.restoreRecord {m : Dict} (h : Stuck f log m c)
    (hat : c.st.RecordAt (logSize log) r) (hfit : logSize log + r.size ≤ f.size)
    (haddr : logSize log + r.size ≤ 2 ^ 32) :
    c.restoreRecord (logSize log) = .ok (c.endBehind (logSize log) r, logSize (log ++ [r]))
      ∧ Stuck f (log ++ [r]) m (c.endBehind (logSize log) r) := by
  have hlen := h.isLog.length_eq
  have hsz := h.size_eq
  have hholds : c.st.file.Holds c.st.length r.encode := hlen ▸ hat.holds
  have hlog := h.isLog.advance hholds (by omega) (by omega)
  constructor
  · rw [restoreRecord_eq hat.shows, restorePair, h.full, logSize_snoc]
    rfl
  · exact ⟨h.files.append r, hlog.congr (congrArg (· + r.size) hlen.symm) rfl rfl, h.file_eq,
      h.size_eq, h.full⟩

/-- The records with a value, of a list. -/
def valued (log : List Record) : List Record := log.filter fun r => r.val ≠ []

/-- **The loop passes over what is left**, and counts the tombstones. -/
theorem Stuck.restoreLoop {m : Dict} {rest : List Record} (h : Stuck f log m c)
    (hlog : f.bytes.Holds 0 ((log ++ rest).flatMap Record.encode))
    (hfit : logSize (log ++ rest) + 4 ≤ f.size) (haddr : logSize (log ++ rest) ≤ 2 ^ 32)
    (hkeys : ∀ r ∈ rest, r.key ≠ [])
    (hzero : ∀ i, logSize (log ++ rest) ≤ i → f.bytes i = 0) {fuel : ℕ}
    (hfuel : rest.length < fuel) :
    ∃ c', restoreLoop c fuel (logSize log) = .ok c' ∧ Stuck f (log ++ rest) m c'
      ∧ c'.st.deleted + logSize (valued rest) = c.st.deleted + logSize rest := by
  induction rest generalizing log c fuel with
  | nil =>
    obtain ⟨fuel, rfl⟩ := Nat.exists_eq_succ_of_ne_zero (by omega : fuel ≠ 0)
    rw [List.append_nil] at hfit hzero ⊢
    exact ⟨c, restoreLoop_end (h.size_eq ▸ hfit) (h.file_eq ▸ hzero) fuel, h, rfl⟩
  | cons r rest ih =>
    obtain ⟨fuel, rfl⟩ := Nat.exists_eq_succ_of_ne_zero (by omega : fuel ≠ 0)
    have hat := recordAt_of_holds h.file_eq h.size_eq hlog hfit haddr
    have hsize := add_size_le_of_recordAt (recordAt_append_cons log r rest)
    obtain ⟨hrec, h₁⟩ := h.restoreRecord hat (by omega) (by omega)
    rw [List.append_cons] at hlog hfit haddr hzero ⊢
    rw [restoreLoop_step hat (hkeys r List.mem_cons_self) hrec]
    obtain ⟨c', hloop, h', hcount⟩ := ih h₁ hlog hfit haddr
      (fun r' hr' => hkeys r' (List.mem_cons_of_mem r hr')) hzero (Nat.lt_of_succ_lt_succ hfuel)
    refine ⟨c', hloop, h', ?_⟩
    dsimp only [endBehind] at hcount
    rw [valued, List.filter_cons, logSize_cons, ← valued]
    by_cases hnil : r.val = []
    · rw [if_pos hnil] at hcount
      rw [if_neg (by simpa using hnil)]
      omega
    · rw [if_neg hnil] at hcount
      rw [if_pos (by simpa using hnil), logSize_cons]
      omega

/-- **The whole loop**, whatever the size of the array: the count is short of the dead bytes by the
records with a value that found the array full. -/
theorem restoreLoop_counts {rest : List Record} (h : Restored f log c)
    (hw : Wastes log (replay fnv1a64 log).dict c.st.deleted)
    (hlog : f.bytes.Holds 0 ((log ++ rest).flatMap Record.encode))
    (hfit : logSize (log ++ rest) + 4 ≤ f.size) (haddr : logSize (log ++ rest) ≤ 2 ^ 32)
    (hreads : Replay.Reads fnv1a64 (replay fnv1a64 log) rest)
    (hlevel : (replay fnv1a64 log).log2 ≤ 26)
    (hzero : ∀ i, logSize (log ++ rest) ≤ i → f.bytes i = 0) {fuel : ℕ}
    (hfuel : rest.length < fuel) :
    ∃ c', restoreLoop c fuel (logSize log) = .ok c' ∧ c'.st.length = logSize (log ++ rest)
      ∧ c'.deadBytes = .ok (c'.st.deleted
        + logSize (valued (Replay.unread fnv1a64 (replay fnv1a64 log) rest))) := by
  obtain ⟨read, hrest, hread, hend⟩ := Replay.exists_read fnv1a64 hlevel rest
  generalize Replay.unread fnv1a64 (replay fnv1a64 log) rest = left at hrest hend ⊢
  subst hrest
  have hreplay : read.foldl (Replay.step fnv1a64) (replay fnv1a64 log)
      = replay fnv1a64 (log ++ read) := (List.foldl_append ..).symm
  rw [hreplay] at hread hend
  rw [← List.append_assoc] at hlog hfit haddr hzero ⊢
  have hle : logSize (log ++ read) ≤ logSize (log ++ read ++ left) := by
    rw [logSize_append (log ++ read)]
    omega
  obtain ⟨n, rfl⟩ := Nat.exists_eq_add_of_lt hfuel
  rw [List.flatMap_append] at hlog
  obtain ⟨c₁, hwalk, h₁, hw₁⟩ := h.restoreLoop_walk ((Mem.holds_append _).mp hlog).1 (by omega)
    (by omega) (Replay.reads_of_append hreads) hread (left.length + n + 1)
  rw [← List.flatMap_append] at hlog
  rw [List.length_append, Nat.add_assoc, Nat.add_assoc, ← Nat.add_assoc left.length, hwalk]
  rcases hend with rfl | hfull
  · rw [List.append_nil] at hfit hzero ⊢
    exact ⟨c₁, restoreLoop_end (h₁.size_eq ▸ hfit) (h₁.file_eq ▸ hzero) _, h₁.isLog.length_eq,
      h₁.toDenotes.deadBytes_eq (hw₁ hw)⟩
  · obtain ⟨c', hloop, h', hcount⟩ := (h₁.stuck hfull).restoreLoop hlog hfit haddr
      (fun r hr => Replay.key_ne_of_reads hreads r (List.mem_append_right _ hr)) hzero
      (Nat.lt_succ_of_le (Nat.le_add_right _ n))
    refine ⟨c', hloop, h'.isLog.length_eq, ?_⟩
    rw [hcount]
    exact deadBytes_of_files h'.files h'.isLog ((hw₁ hw).append _)

/-- The `PMap` the restoring loop starts with. -/
theorem restored_start (path : String) (f : File) :
    Restored f [] ⟨newHashMap defaultHashMapInitialLog2Size defaultHashMapSizeLimit, openStore f,
      .zero, path⟩ :=
  ⟨⟨.new fnv1a64, rfl, rfl, Nat.zero_le _, Nat.zero_le _⟩, rfl, rfl, rfl, rfl, rfl⟩

/-- **`Open`** of a closed `PMap` whose log says what it is: below the limit of the array, with the
four bytes it reads behind the last record, it returns. -/
theorem Mirrors.open_eq {L : Ledger} (h : c.Mirrors fnv1a64 L)
    (hlimit : c.hm.size < c.hm.sizeLimit) (hfree : logSize L.log + 4 ≤ c.st.size) (path : String) :
    ∃ c', PMap.open path c.close = .ok c' ∧ Restored c.close L.log c'
      ∧ Wastes L.log L.dict c'.st.deleted := by
  have hlen := h.isLog.length_eq
  have haddr := h.isLog.addressable
  have hlevel : (replay fnv1a64 L.log).log2 ≤ 26 := by
    rw [h.index.limit_eq, h.index.valid.size_eq] at hlimit
    have hlt : c.hm.sizelog2 < 26 := (Nat.pow_lt_pow_iff_right (by decide : 1 < 2)).mp hlimit
    rcases h.ahead with hle | ⟨heq, -⟩ <;> omega
  have hcount := length_le_logSize L.log
  obtain ⟨c', hopen, hc', hw⟩ := restoreLoop_spec (restored_start path c.close) h.isLog.holds
    hfree (show logSize L.log ≤ 2 ^ 32 by omega) h.reads
    hlevel (fun i hi => h.zero i (by rw [hlen]; exact hi))
    (show L.log.length < c.st.size + 1 by omega)
  have hdict : L.dict = (replay fnv1a64 L.log).dict := h.dict_eq.symm
  exact ⟨c', hopen, hc', hdict ▸ hw wastes_nil⟩

/-- **`Open`, whatever the size of the array**: it counts the dead bytes, but for the records with a
value that found the array full. -/
theorem Mirrors.open_deadBytes {L : Ledger} (h : c.Mirrors fnv1a64 L)
    (hfree : logSize L.log + 4 ≤ c.st.size) (path : String) :
    ∃ c', PMap.open path c.close = .ok c' ∧ c'.st.length = c.st.length
      ∧ c'.deadBytes = .ok (c'.st.deleted
        + logSize (valued (Replay.unread fnv1a64 .start L.log))) := by
  have hlen := h.isLog.length_eq
  have haddr := h.isLog.addressable
  have hcount := length_le_logSize L.log
  obtain ⟨c', hopen, hlen', hdead⟩ := restoreLoop_counts (restored_start path c.close) wastes_nil
    h.isLog.holds hfree (show logSize L.log ≤ 2 ^ 32 by omega) h.reads
    (show defaultHashMapInitialLog2Size ≤ 26 by decide)
    (fun i hi => h.zero i (by rw [hlen]; exact hi)) (show L.log.length < c.st.size + 1 by omega)
  exact ⟨c', hopen, hlen'.trans hlen.symm, hdead⟩

/-- **Persistence.**  After a run on non-empty keys in which no `put` was denied, the array is below
its limit and eight bytes are left, `Close` and `Open` give back the length, the dictionary and the
checksum. -/
theorem open_close {path : String} {size : ℕ} {evs : List (Op × Option Error)}
    (hsize : size ≤ 2 ^ 32) (hrun : Run (Answered fnv1a64) (new path size) evs c)
    (hevs : ∀ ev ∈ evs, ev.1.key ≠ [] ∧ ev.2 ≠ some .storeLimit)
    (hlimit : c.hm.size < c.hm.sizeLimit) (hfree : c.st.length + 8 ≤ c.st.size) :
    ∃ c', PMap.open path c.close = .ok c' ∧ c'.st.length = c.st.length ∧ c'.value = c.value
      ∧ c'.checksum.newChecksum = c.checksum.newChecksum := by
  have h := mirrors_run (run_step hsize hrun (refines_new fnv1a64 path size) rfl) hevs
  generalize (Ledger.new size).run fnv1a64 evs = L at h
  have hlen := h.isLog.length_eq
  obtain ⟨c', hopen, hc', -⟩ := h.open_eq hlimit (by omega) path
  refine ⟨c', hopen, ?_, ?_, ?_⟩
  · rw [hc'.isLog.length_eq, hlen]
  · rw [hc'.value_eq, h.value_eq]
    exact h.dict_eq
  · rw [hc'.sum_eq, h.checksum_eq]
    exact h.sum_eq

/-- A pair deleted and set again, and one swapped for an older value. -/
theorem open_close_history : ∃ c c',
    Run (Answered fnv1a64) (new "" 200)
      [(.set [1] (stamped 5 [7]), none), (.set [2] (stamped 9 [8]), none),
        (.del [1] (stamped 6 []), none), (.set [1] (stamped 4 [3]), none),
        (.cas [2] (stamped 9 (leBytes 8 (fnv1a64 [8]).toNat ++ stamped 2 [1])), none)] c
    ∧ PMap.open "" c.close = .ok c' ∧ c'.value [1] = some (stamped 4 [3])
    ∧ c'.value [2] = some (stamped 2 [1]) := by
  obtain ⟨c, hrun, hobs⟩ := exists_run fnv1a64 (new "" 200)
    [(.set [1] (stamped 5 [7]), none), (.set [2] (stamped 9 [8]), none),
      (.del [1] (stamped 6 []), none), (.set [1] (stamped 4 [3]), none),
      (.cas [2] (stamped 9 (leBytes 8 (fnv1a64 [8]).toNat ++ stamped 2 [1])), none)]
    (fun c => .ok (c.hm.size, c.hm.sizeLimit, c.st.length, c.st.size))
    (65536, 67108864, 101, 200) (by decide) (by decide +kernel)
  obtain ⟨hs, hobs⟩ := Prod.mk.inj (Except.ok.inj hobs)
  obtain ⟨hl, hobs⟩ := Prod.mk.inj hobs
  obtain ⟨hn, hz⟩ := Prod.mk.inj hobs
  obtain ⟨c', hopen, -, hv, -⟩ := open_close (by decide) hrun (by decide) (by omega) (by omega)
  have h := refines_run (run_step (by decide) hrun (refines_new fnv1a64 "" 200) rfl)
  refine ⟨c, c', hrun, hopen, ?_, ?_⟩ <;>
    rw [hv, h.value_eq, Ledger.dict_run] <;> decide +kernel

end PMap

end Treeless
