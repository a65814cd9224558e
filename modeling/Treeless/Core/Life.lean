import Treeless.Core.Defrag
import Treeless.PMap.Scan

/-!
# Core/Life — the `PMap` of a chunk, over all that happens to it

    New ──▸ Set, CAS, Del ──▸ defragment ──▸ Set, … ──▸ Close, Open ──▸ defragment ──▸ …

A defragmentation and a reopening each have conditions of their own for being invisible
(`Undisturbed`, `Mirrors`), about the log they find.  Over a whole life they all follow from what
the requests are like (`Orderly`): a key with a hash word that is not reserved, one value for one
timestamp, and timestamps too late to be mistaken for the lengths of two keys.  In a chunk of at
most 256 MiB the bucket array never comes near its limit (`Paced`).
-/

namespace Treeless

/-! ## How far the bucket array grows -/

/-- An array of `2 ^ log2` buckets, `stored` of them in use, that was doubled no more often than `n`
records make it. -/
structure Paced (log2 stored n : ℕ) : Prop where
  stored_le : stored ≤ n
  doubled : log2 ≤ defaultHashMapInitialLog2Size ∨ capacity (log2 - 1) ≤ n

theorem Paced.mono {log2 stored n n' : ℕ} (h : Paced log2 stored n) (hn : n ≤ n') :
    Paced log2 stored n' :=
  ⟨h.stored_le.trans hn, h.doubled.imp_right fun hle => hle.trans hn⟩

theorem twelve_mul_length_le : ∀ log : List Record, 12 * log.length ≤ logSize log
  | [] => le_rfl
  | r :: log => by
      have h := twelve_mul_length_le log
      have h12 := r.twelve_le_size
      rw [List.length_cons, logSize_cons]
      omega

/-- **In 256 MiB** there is no room for the records that would take an array to its limit. -/
theorem Paced.log2_lt {log2 stored : ℕ} {log : List Record} (h : Paced log2 stored log.length)
    (hlog : logSize log ≤ 2 ^ 28) : log2 < 26 := by
  have h12 := twelve_mul_length_le log
  rcases h.doubled with hle | hcap
  · exact hle.trans_lt (by decide)
  · by_contra hge
    have hmono := (strictMono_nat_of_lt_succ capacity_lt_succ).monotone
      (show 25 ≤ log2 - 1 by omega)
    have h25 : capacity 25 = 23488102 := by decide
    omega

/-- A dictionary has no more keys than a list that has them all. -/
theorem Dict.count_le_length {m : Dict} {ks : List Bytes} (h : ∀ k, m k ≠ none → k ∈ ks) :
    m.count ≤ ks.length := by
  have hsub : {k | m k ≠ none} ⊆ ((ks.toFinset : Finset Bytes) : Set Bytes) := fun k hk =>
    Finset.mem_coe.mpr (List.mem_toFinset.mpr (h k hk))
  calc m.count ≤ ((ks.toFinset : Finset Bytes) : Set Bytes).ncard :=
        Set.ncard_le_ncard hsub (Finset.finite_toSet _)
    _ = ks.toFinset.card := Set.ncard_coe_finset _
    _ ≤ ks.length := ks.toFinset_card_le

theorem count_firsts_le (ys : List Record) : (firsts ys).count ≤ ys.length := by
  rw [← List.length_map (f := Record.key)]
  refine Dict.count_le_length fun k hk => ?_
  obtain ⟨v, hv⟩ := Option.ne_none_iff_exists'.mp hk
  obtain ⟨y, hy, rfl, -⟩ := mem_of_firsts hv
  exact List.mem_map_of_mem hy

/-- A record that is not the last has a next one. -/
theorem exists_next : ∀ {log : List Record} {off : ℕ} {r : Record}, recordAt log off = some r →
    off + r.size < logSize log → ∃ r', recordAt log (off + r.size) = some r'
  | r₀ :: log, off, r, hr, hlt => by
      rw [logSize_cons] at hlt
      rw [recordAt] at hr
      split at hr
      · next h0 =>
        obtain rfl := Option.some.inj hr
        cases log with
        | nil =>
          rw [logSize_nil] at hlt
          omega
        | cons r₁ log =>
          refine ⟨r₁, ?_⟩
          rw [h0, Nat.zero_add]
          exact (recordAt_size_add r₀ _ 0).trans (recordAt_zero r₁ log)
      · split at hr
        · cases hr
        · obtain ⟨r', hr'⟩ := exists_next hr (by omega)
          refine ⟨r', ?_⟩
          rw [show off + r.size = r₀.size + (off - r₀.size + r.size) by omega, recordAt_size_add]
          exact hr'

theorem located_of_recordAt : ∀ {log : List Record} {off : ℕ} {r : Record} (base : ℕ),
    recordAt log off = some r → ∃ p ∈ located base log, p.2 = r ∧ p.1 = base + off
  | r₀ :: log, off, r, base, hr => by
      rw [recordAt] at hr
      split at hr
      · next h0 =>
        exact ⟨(base, r₀), List.mem_cons_self, Option.some.inj hr, by rw [h0, Nat.add_zero]⟩
      · split at hr
        · cases hr
        · obtain ⟨p, hp, hp2, hp1⟩ := located_of_recordAt (base + r₀.size) hr
          exact ⟨p, List.mem_cons_of_mem _ hp, hp2, by omega⟩

/-- The keys a reader knows are those of records it has read. -/
theorem mem_of_replay {hash : Bytes → UInt64} {log : List Record} {k : Bytes}
    (h : (replay hash log).dict k ≠ none) : k ∈ log.map Record.key := by
  induction log using List.reverseRecOn with
  | nil => exact absurd rfl h
  | append_singleton log r ih =>
    rw [List.map_append, List.map_singleton]
    by_cases hk : k = r.key
    · exact List.mem_append_right _ (List.mem_singleton.mpr hk)
    · refine List.mem_append_left _ (ih fun hnone => h ?_)
      rw [replay_snoc, Replay.step]
      split <;> exact (Function.update_of_ne hk _ _).trans hnone

/-- **The array a reader of the log fills** is paced by the records. -/
theorem paced_replay (hash : Bytes → UInt64) (log : List Record) :
    Paced (replay hash log).log2 (replay hash log).stored log.length := by
  induction log using List.reverseRecOn with
  | nil => exact ⟨le_rfl, Or.inl le_rfl⟩
  | append_singleton log r ih =>
    have hcount : (replay hash log).dict.count ≤ log.length := by
      rw [← List.length_map (f := Record.key)]
      exact Dict.count_le_length fun k => mem_of_replay
    have hnew : (if (replay hash log).dict r.key = none then 1 else 0) ≤ 1 := by split <;> omega
    have hstored := ih.stored_le
    rw [replay_snoc, Replay.log2_step, Replay.stored_step, List.length_append,
      List.length_singleton, Replay.space]
    split
    · next hfull =>
      refine ⟨Nat.add_le_add hcount hnew, Or.inr ?_⟩
      dsimp only
      rw [Nat.add_sub_cancel]
      omega
    · exact ⟨Nat.add_le_add hstored hnew, ih.doubled.imp_right fun h => by omega⟩

/-- The array was doubled, being full, or not. -/
def HashMap.Doubled (hm hm' : HashMap) : Prop :=
  hm'.sizelog2 = hm.sizelog2
    ∨ (hm.numKeysToExpand ≤ hm.numStoredKeys ∧ hm'.sizelog2 = hm.sizelog2 + 1)

theorem HashMap.Spaced.doubled {hm hm' : HashMap} (h : Spaced hm hm') : Doubled hm hm' := by
  rcases h with ⟨-, rfl⟩ | ⟨hfull, -, hN⟩
  · exact Or.inl rfl
  · exact Or.inr ⟨hfull, hN.log2_eq⟩

namespace PMap

variable {hash : Bytes → UInt64} {c c' : PMap} {L : Ledger}

/-- The rest of an insertion, behind the check for space: it is not made, or finds an array that
was doubled only if it was full. -/
theorem returns_checkSpace (h : c.hm.Shaped) {f : Except Error HashMap → Call (Option Error × PMap)}
    (herr : ∀ e, (f (.error e)).Returns fun p => HashMap.Doubled c.hm p.2.hm)
    (hok : ∀ hm, HashMap.Doubled c.hm hm → (f (.ok hm)).Returns fun p =>
      HashMap.Doubled c.hm p.2.hm) :
    (c.hm.checkSpace >>= f).Returns fun p => HashMap.Doubled c.hm p.2.hm := by
  rcases HashMap.checkSpace_eq h with ⟨-, hcs⟩ | ⟨-, hm, hcs, hs⟩ <;> rw [hcs, Call.ok_bind]
  · exact herr _
  · exact hok hm hs.doubled

theorem doubled_set (h : c.hm.Shaped) (h64 : UInt64) (k v : Bytes) :
    (c.set h64 k v).Returns fun p => HashMap.Doubled c.hm p.2.hm := by
  unfold set
  split
  · exact .ok (Or.inl rfl)
  refine returns_checkSpace h (fun _ => .ok (Or.inl rfl)) fun hm hd => ?_
  refine .bind fun slot => ?_
  split
  · refine .bind fun put => ?_
    split <;> exact .ok hd
  · refine .bind fun v => .bind fun old => ?_
    dsimp only
    split
    · exact .ok hd
    refine .bind fun put => ?_
    split
    · exact .ok hd
    · exact .bind fun _ => .ok hd

theorem doubled_cas (h : c.hm.Shaped) (h64 : UInt64) (k v : Bytes) :
    (c.cas h64 k v).Returns fun p => HashMap.Doubled c.hm p.2.hm := by
  unfold cas
  split
  · exact .ok (Or.inl rfl)
  refine returns_checkSpace h (fun _ => .ok (Or.inl rfl)) fun hm hd => ?_
  refine .bind fun slot => ?_
  split
  · split
    · exact .ok hd
    refine .bind fun put => ?_
    split <;> exact .ok hd
  · refine .bind fun v => .bind fun old => ?_
    split
    · exact .ok hd
    split
    · exact .fault _
    split
    · exact .ok hd
    refine .bind fun put => ?_
    split <;> exact .ok hd

theorem doubled_del (h64 : UInt64) (k v : Bytes) :
    (c.del h64 k v).Returns fun p => HashMap.Doubled c.hm p.2.hm := by
  unfold del
  refine .bind fun slot => ?_
  split
  · exact .ok (Or.inl rfl)
  refine .bind fun v => .bind fun old => ?_
  split
  · exact .fault _
  dsimp only
  split
  · exact .ok (Or.inl rfl)
  refine .bind fun put => ?_
  split <;> exact .ok (Or.inl rfl)

/-- **A request doubles a full array only.** -/
theorem doubled_apply (h : c.hm.Shaped) (op : Op) :
    (c.apply hash op).Returns fun p => HashMap.Doubled c.hm p.2.hm := by
  cases op with
  | set k v => exact doubled_set h _ k v
  | cas k v => exact doubled_cas h _ k v
  | del k v => exact doubled_del _ k v

/-- **One request** keeps the array paced by the records. -/
theorem Refines.paced (h : c.Refines hash L) {ev : Op × Option Error} (hs : Step hash c ev c')
    (hp : Paced c.hm.sizelog2 c.hm.numStoredKeys L.log.length) :
    Paced c'.hm.sizelog2 c'.hm.numStoredKeys (L.apply hash ev).log.length := by
  obtain ⟨-, h', -, hm⟩ := hs.refines h
  have hlive : c.hm.liveCount ≤ c.hm.numStoredKeys := by
    rw [h.index.valid.stored_eq]
    exact HashMap.liveCount_le_used
  have hstored := hp.stored_le
  have hgrown : ∀ {n : ℕ}, HashMap.Grown n c.hm c'.hm →
      c'.hm.numStoredKeys ≤ c.hm.numStoredKeys + n := by
    rintro n (⟨-, hst⟩ | ⟨-, hst⟩) <;> omega
  have hlog : L.log.length ≤ (L.apply hash ev).log.length
      ∧ c'.hm.numStoredKeys ≤ (L.apply hash ev).log.length := by
    rcases hm with ⟨hlog, -, hg⟩ | ⟨r, hlog, -, hg⟩ <;> have hst := hgrown hg <;> rw [hlog]
    · exact ⟨le_rfl, by omega⟩
    · rw [List.length_append, List.length_singleton]
      have hone : (if L.dict r.key = none then 1 else 0) ≤ 1 := by split <;> omega
      exact ⟨Nat.le_succ _, by omega⟩
  refine ⟨hlog.2, ?_⟩
  rcases doubled_apply h.index.valid.toShaped ev.1 _ hs.2.1 with hsame | ⟨hfull, hmore⟩
  · rw [show c'.hm.sizelog2 = c.hm.sizelog2 from hsame]
    exact hp.doubled.imp_right fun hcap => hcap.trans hlog.1
  · rw [h.index.valid.toShaped.full_eq_capacity] at hfull
    rw [show c'.hm.sizelog2 = c.hm.sizelog2 + 1 from hmore, Nat.add_sub_cancel]
    exact Or.inr ((hfull.trans hstored).trans hlog.1)

/-! ## Requests that keep order -/

/-- What the requests of a list were allowed to write. -/
def offered (evs : List (Op × Option Error)) : List Record :=
  evs.filterMap fun ev => if ev.2 = none ∧ ev.1.record.val ≠ [] then some ev.1.record else none

theorem mem_offered {evs : List (Op × Option Error)} {ev : Op × Option Error} (hev : ev ∈ evs)
    (hnone : ev.2 = none) (hval : ev.1.record.val ≠ []) : ev.1.record ∈ offered evs :=
  List.mem_filterMap.mpr ⟨ev, hev, if_pos ⟨hnone, hval⟩⟩

/-- What the requests to a chunk of `size` bytes keep to: every key has a hash word that is not
reserved; a timestamp of a key stands for one value; it is too late to be the lengths of two keys,
which is what stands behind a tombstone; and no `put` of a `CAS` or a `Del` is denied. -/
structure Orderly (size : ℕ) (evs : List (Op × Option Error)) : Prop where
  key : ∀ ev ∈ evs, ev.1.key ≠ [] ∧ 2 ≤ (fnv1a64 ev.1.key).toUInt32
  single : ∀ r ∈ offered evs, ∀ r' ∈ offered evs, r.key = r'.key →
    unixTime r.val = unixTime r'.val → r.val = r'.val
  late : ∀ r ∈ offered evs, (size : Time) * 2 ^ 32 ≤ unixTime r.val
  granted : ∀ ev ∈ evs, ev.2 = some .storeLimit → ∃ k v, ev.1 = .set k v

/-- **One request** on a key, with no `put` of a `CAS` or a `Del` denied. -/
theorem Mirrors.request (h : c.Mirrors hash L) {ev : Op × Option Error} (hs : Step hash c ev c')
    (hkey : ev.1.key ≠ []) (hput : ev.2 = some .storeLimit → ∃ k v, ev.1 = .set k v) :
    c'.Mirrors hash (L.apply hash ev) := by
  by_cases hdenied : ev.2 = some .storeLimit
  · obtain ⟨-, h', -, hm⟩ := hs.refines h.toRefines
    obtain ⟨k, v, hop⟩ := hput hdenied
    have hsame : L.apply hash ev = L := by
      rw [show ev = (.set k v, some .storeLimit) from Prod.ext hop hdenied]
      rfl
    rw [hsame] at h' hm ⊢
    exact h.keep h' hm
  · exact h.step hs hkey hdenied

/-! ## What every life keeps -/

/-- `c` is the `PMap` of a chunk of `size` bytes that was asked some of the requests `evs`. -/
structure Lived (size : ℕ) (evs : List (Op × Option Error)) (c : PMap) (L : Ledger) : Prop
    extends c.Mirrors fnv1a64 L where
  sized : L.size = size
  sound : L.Sound
  keys : ∀ r ∈ L.log, ∃ ev ∈ evs, ev.1.key = r.key
  source : ∀ r ∈ L.log, r.val ≠ [] → r ∈ offered evs
  paced : Paced c.hm.sizelog2 c.hm.numStoredKeys L.log.length

section Lived

variable {size : ℕ} {evs : List (Op × Option Error)}

theorem lived_new (path : String) (size : ℕ) (evs : List (Op × Option Error)) :
    (new path size).Lived size evs (Ledger.new size) where
  toMirrors := mirrors_new fnv1a64 path size
  sized := rfl
  sound := ⟨fun _ hr => (by cases hr), Or.inl rfl⟩
  keys _ hr := by cases hr
  source _ hr := by cases hr
  paced := ⟨le_rfl, Or.inl le_rfl⟩

/-- **A request.** -/
theorem Lived.request (h : c.Lived size evs L) (ho : Orderly size evs) (hsize : size ≤ 2 ^ 32)
    {ev : Op × Option Error} (hev : ev ∈ evs) (hs : Answered fnv1a64 c ev c') :
    c'.Lived size evs (L.apply fnv1a64 ev) := by
  have hstep := hs.step (h.sized.trans_le hsize) h.toRefines
  have heff := hstep.effect h.toRefines
  refine ⟨h.toMirrors.request hstep (ho.key ev hev).1 (ho.granted ev hev),
    (Ledger.size_apply _ L ev).trans h.sized, heff.sound h.sound, fun r hr => ?_,
    fun r hr hval => ?_, h.toRefines.paced hstep h.paced⟩
  · rcases heff.mem_log hr with hr | ⟨-, rfl⟩
    · exact h.keys r hr
    · exact ⟨ev, hev, by cases ev.1 <;> rfl⟩
  · rcases heff.mem_log hr with hr | ⟨hnone, rfl⟩
    · exact h.source r hr hval
    · exact mem_offered hev hnone hval

/-- The log is in the chunk. -/
theorem Lived.logSize_le (h : c.Lived size evs L) : logSize L.log ≤ size := by
  rw [← h.isLog.length_eq, ← h.sized, ← h.size_eq]
  exact h.isLog.fits

/-- **The bucket array is below its limit**, in a chunk of at most 256 MiB. -/
theorem Lived.size_lt (h : c.Lived size evs L) (hsize : size ≤ 2 ^ 28) :
    c.hm.size < c.hm.sizeLimit ∧ c.hm.full = false := by
  have hlog := h.paced.log2_lt (h.logSize_le.trans hsize)
  have hpow : 2 ^ (c.hm.sizelog2 + 1) ≤ 2 ^ 26 := Nat.pow_le_pow_right (by decide) hlog
  have hlim : c.hm.sizeLimit = 2 ^ 26 := h.index.limit_eq
  have hsz : c.hm.size = 2 ^ c.hm.sizelog2 := h.index.valid.size_eq
  have hpos : 0 < 2 ^ c.hm.sizelog2 := Nat.two_pow_pos _
  rw [pow_succ] at hpow
  exact ⟨by omega, decide_eq_false fun hfull => by omega⟩

/-! ## Reopening -/

/-- **A reopening** with the four bytes that it reads behind the log. -/
theorem Lived.reopen (h : c.Lived size evs L) (hsize : size ≤ 2 ^ 28)
    (hfree : c.st.length + 4 ≤ size) (path : String) :
    ∃ c' L', PMap.open path c.close = .ok c' ∧ c'.Lived size evs L' ∧ L'.dict = L.dict := by
  have hst : c.st.size = size := h.size_eq.trans h.sized
  obtain ⟨c', hopen, hc', -⟩ := h.open_eq (h.size_lt hsize).1
    (by rw [← h.isLog.length_eq, hst]; exact hfree) path
  have hdenotes : c'.Denotes fnv1a64 L.log L.dict := h.dict_eq ▸ hc'.toDenotes
  refine ⟨c', { L with checksum := c'.checksum, deleted := c'.st.deleted }, hopen, ?_, rfl⟩
  exact
    { toDenotes := hdenotes
      size_eq := hc'.size_eq.trans h.size_eq
      checksum_eq := rfl
      deleted_eq := rfl
      dict_eq := h.dict_eq
      sum_eq := hc'.sum_eq.symm
      ahead := Or.inl hc'.log2_eq.ge
      reads := h.reads
      zero := fun i hi => by
        rw [hc'.file_eq]
        exact h.zero i (by rwa [h.isLog.length_eq, ← hc'.isLog.length_eq])
      sized := h.sized
      sound := ⟨h.sound.timed, h.sound.spare⟩
      keys := h.keys
      source := h.source
      paced := by
        rw [hc'.log2_eq, hc'.stored_eq]
        exact paced_replay fnv1a64 L.log }

/-- **A reopening that returns** has read the four bytes behind the log. -/
theorem Lived.room_of_open (h : c.Lived size evs L) (ho : Orderly size evs) {path : String}
    (hx : PMap.open path c.close = .ok c') : c.st.length + 4 ≤ size := by
  have hst : c.st.size = size := h.size_eq.trans h.sized
  have haddr := h.isLog.addressable
  have hlen := h.isLog.length_eq
  have hw : c.st.Wrote L.log :=
    { length_eq := hlen
      holds := h.isLog.holds
      fits := h.isLog.fits
      short := fun r hr => by
        rw [← map_snd_located 0 L.log] at hr
        obtain ⟨p, hp, rfl⟩ := List.mem_map.mp hr
        obtain ⟨off, -, hat⟩ := recordAt_of_located hp
        exact (h.isLog.recordAt hat).short
      zero := h.zero }
  have hkeys : ∀ r ∈ L.log, r.key ≠ [] := fun r hr => by
    obtain ⟨ev, hev, hkey⟩ := h.keys r hr
    exact hkey ▸ (ho.key ev hev).1
  have hstart : ∀ off r, recordAt L.log off = some r → off < 2 ^ 32 := fun off r hr => by
    have hle := add_size_le_of_recordAt hr
    have h12 := r.twelve_le_size
    omega
  rcases open_of_wrote path hw hkeys hstart with ⟨hroom, -⟩ | ⟨-, hfault⟩
  · omega
  · cases hx.symm.trans hfault

/-! ## Defragmenting -/

/-- Behind a tombstone of a present key stand its own length and that of the next key: a number of
nanoseconds long past. -/
theorem Denotes.unixTime_shown_tombstone {log : List Record} {m : Dict}
    (h : c.Denotes fnv1a64 log m) (hsize : c.st.size ≤ 2 ^ 31) {index : ℕ} {r : Record}
    (hr : recordAt log index = some r) (hval : r.val = []) {v : Bytes} (hv : m r.key = some v) :
    unixTime (c.st.shown (index, r)) < (c.st.size : Time) * 2 ^ 32 := by
  -- the current record of the key is behind the tombstone, so that some record follows
  obtain ⟨i, hi, hi2, htarget⟩ := h.index.mem r.key v hv
  have hlen : 8 ≤ v.length := (h.index.live i hi hi2 _ htarget).2.2
  have hlt : index < (c.hm.getStoreIndex i).toNat := by
    refine (h.index.latest i hi hi2 _ htarget index r hr rfl).lt_of_ne fun heq => ?_
    have hsame : some r = some ⟨r.key, v⟩ := hr.symm.trans (heq ▸ htarget)
    rw [Option.some.inj hsame] at hval
    rw [show v = [] from hval] at hlen
    exact absurd hlen (by decide)
  have hend := add_size_le_of_recordAt htarget
  have hsep := add_size_le_of_lt hr htarget hlt
  rw [Record.size_mk] at hend
  obtain ⟨r', hr'⟩ := exists_next hr (by omega)
  have hfirst := (h.isLog.recordAt hr).fields.2.2.2.2
  have hsecond := (h.isLog.recordAt hr').fields.1
  have hfits := (h.isLog.recordAt hr').fits
  have hshort := (h.isLog.recordAt hr').short
  have hown := (h.isLog.recordAt hr).short
  have hrs : r.size = 12 + r.key.length := by rw [Record.size, hval]; rfl
  have hrs' : r'.size = 12 + r'.key.length + r'.val.length := rfl
  simp only [hval, List.length_nil, Nat.add_zero] at hfirst
  rw [hrs, show index + (12 + r.key.length) = index + 8 + r.key.length + 4 by omega] at hsecond
  rw [Mem.Holds, length_leBytes] at hfirst hsecond
  have hshown : c.st.shown (index, r) = leBytes 4 r.key.length ++ leBytes 4 r'.key.length := by
    rw [Store.shown, show (8 : ℕ) = 4 + 4 from rfl, Mem.read_add]
    exact congrArg₂ _ hfirst hsecond
  have hnat : leNat ((c.st.shown (index, r)).take 8) = r.key.length + 2 ^ 32 * r'.key.length := by
    rw [hshown, List.take_of_length_le (by simp), leNat_append, length_leBytes,
      leNat_leBytes_of_lt (by omega), leNat_leBytes_of_lt (by omega)]
    rfl
  have hlt : r.key.length + 2 ^ 32 * r'.key.length < c.st.size * 2 ^ 32 := by omega
  rw [unixTime_eq_leNat (by omega), hnat]
  exact_mod_cast hlt

/-- The pair of a key is a record of the log. -/
theorem Lived.mem_of_dict (h : c.Lived size evs L) {k v : Bytes} (hk : L.dict k = some v) :
    ∃ p ∈ located 0 L.log, p.2 = ⟨k, v⟩ ∧ c.st.shown p = v.take 8 ∧ ⟨k, v⟩ ∈ offered evs := by
  obtain ⟨i, hi, hi2, hr⟩ := h.index.mem k v hk
  have hlen : 8 ≤ v.length := (h.index.live i hi hi2 _ hr).2.2
  have hne : v ≠ [] := fun h0 => by
    rw [h0] at hlen
    exact absurd hlen (by decide)
  obtain ⟨p, hp, hp2, hp1⟩ := located_of_recordAt 0 hr
  refine ⟨p, hp, hp2, ?_, h.source _ (mem_of_recordAt hr) hne⟩
  have hval : c.st.file.Holds (p.1 + 8 + k.length) v := by
    rw [hp1, Nat.zero_add]
    exact (h.isLog.recordAt hr).shows.valBytes
  rw [Store.shown, hp2, ← Mem.take_read _ hlen, show c.st.file.read _ v.length = v from hval]

section Orderly

variable (h : c.Lived size evs L) (ho : Orderly size evs) {p : ℕ × Record}
  (hp : p ∈ located 0 L.log)

include h ho hp

theorem Lived.shows_eq : c.Answers p ∧ c.shows p = c.st.current L.dict p := by
  obtain ⟨off, -, hr⟩ := recordAt_of_located hp
  obtain ⟨ev, hev, hkey⟩ := h.keys p.2 (mem_of_recordAt hr)
  exact h.toDenotes.shows_eq hp (hkey ▸ (ho.key ev hev).2)

/-- A record that shows has the time of the pair of its key. -/
theorem Lived.time_of_shows (hx : c.shows p = true) :
    ∃ v, L.dict p.2.key = some v ∧ v.take 8 = c.st.shown p := by
  rw [(h.shows_eq ho hp).2, Store.current] at hx
  split at hx
  · cases hx
  · next v hv => exact ⟨v, hv, of_decide_eq_true hx⟩

/-- **No tombstone shows.** -/
theorem Lived.val_ne_of_shows (hsize : size ≤ 2 ^ 31) (hx : c.shows p = true) : p.2.val ≠ [] := by
  intro hval
  have hst : c.st.size = size := h.size_eq.trans h.sized
  obtain ⟨off, hoff, hr⟩ := recordAt_of_located hp
  obtain ⟨v, hv, hfirst⟩ := h.time_of_shows ho hp hx
  obtain ⟨-, -, -, -, hoffer⟩ := h.mem_of_dict hv
  rw [Nat.zero_add] at hoff
  have hlate := ho.late _ hoffer
  have hpast := h.unixTime_shown_tombstone (hst.trans_le hsize) (hoff ▸ hr) hval hv
  rw [← unixTime_take, show v.take 8 = _ from hfirst, ← hst] at hlate
  exact absurd hlate (not_le.mpr hpast)

/-- **A record that shows is the pair of its key.** -/
theorem Lived.val_of_shows (hsize : size ≤ 2 ^ 31) (hx : c.shows p = true) :
    L.dict p.2.key = some p.2.val := by
  obtain ⟨off, hoff, hr⟩ := recordAt_of_located hp
  have hmem := mem_of_recordAt hr
  have hne := h.val_ne_of_shows ho hp hsize hx
  have hlen := (h.sound.timed p.2 hmem).resolve_right hne
  obtain ⟨v, hv, hfirst⟩ := h.time_of_shows ho hp hx
  obtain ⟨-, -, -, -, hoffer⟩ := h.mem_of_dict hv
  rw [Nat.zero_add] at hoff
  have hval : c.st.file.Holds (p.1 + 8 + p.2.key.length) p.2.val := by
    rw [hoff]
    exact (h.isLog.recordAt hr).shows.valBytes
  rw [Store.shown, ← Mem.take_read _ hlen, show c.st.file.read _ p.2.val.length = _ from hval]
    at hfirst
  have htime : unixTime p.2.val = unixTime v := by
    rw [← unixTime_take, ← hfirst, unixTime_take]
  rw [hv, ho.single _ (h.source _ hmem hne) _ hoffer rfl htime]

end Orderly

/-- As many keys as there are records, which are fewer than a bucket array takes. -/
theorem below_of_length : ∀ {rest : List Record} (ys : List Record),
    (ys ++ rest).length < capacity 26 → Below ys rest
  | [], _, _ => trivial
  | r :: rest, ys, hlen => by
      refine ⟨(count_firsts_le ys).trans_lt ?_, below_of_length (ys ++ [r]) ?_⟩
      · rw [List.length_append] at hlen
        omega
      · rwa [List.append_assoc]

/-- **A chunk that lived on orderly requests is undisturbed.** -/
theorem Lived.undisturbed (h : c.Lived size evs L) (ho : Orderly size evs) (hsize : size ≤ 2 ^ 28) :
    c.Undisturbed L.log where
  answers p hp := (h.shows_eq ho hp).1
  tombstones p hp := h.val_ne_of_shows ho hp (hsize.trans (by decide))
  first k := by
    rw [h.value_eq]
    cases hk : L.dict k with
    | none =>
      rw [Option.map_eq_none_iff, List.find?_eq_none]
      intro p hp hx
      obtain ⟨hx, hkey⟩ := Bool.and_eq_true_iff.mp hx
      obtain ⟨v, hv, -⟩ := h.time_of_shows ho hp hx
      rw [of_decide_eq_true hkey, hk] at hv
      cases hv
    | some v =>
      obtain ⟨p₀, hp₀, hpair, hshown, -⟩ := h.mem_of_dict hk
      have hx₀ : c.shows p₀ = true := by
        rw [(h.shows_eq ho hp₀).2, Store.current, hpair]
        dsimp only
        rw [hk]
        exact decide_eq_true hshown.symm
      have hfound : ((located 0 L.log).find? fun p => c.shows p && decide (p.2.key = k)).isSome :=
        List.find?_isSome.mpr ⟨p₀, hp₀, by rw [hx₀, hpair]; exact decide_eq_true rfl⟩
      obtain ⟨p, hfind⟩ := Option.isSome_iff_exists.mp hfound
      have hboth := List.find?_some (p := fun p => c.shows p && decide (p.2.key = k)) hfind
      obtain ⟨hx, hkey⟩ := Bool.and_eq_true_iff.mp hboth
      have hval := h.val_of_shows ho (List.mem_of_find?_eq_some hfind)
        (hsize.trans (by decide)) hx
      rw [of_decide_eq_true hkey, hk] at hval
      rw [hfind, Option.map_some, Option.some.inj hval]
  below := by
    have h12 := twelve_mul_length_le L.log
    have hlog := h.logSize_le
    have hshown : (c.shownRecords L.log).length ≤ L.log.length := by
      rw [shownRecords, List.length_map]
      refine (List.length_filter_le _ _).trans_eq ?_
      rw [← List.length_map (f := Prod.snd), map_snd_located]
    have hcap : capacity 26 = 46976204 := by decide
    exact below_of_length [] (by rw [List.nil_append]; omega)

end Lived

/-- The `Set` of a record. -/
def setRecord (r : Record) : Op × Option Error := (.set r.key r.val, none)

/-- **Copying records is a run of `Set`s.** -/
theorem run_of_copyRecord : ∀ {ys : List Record} {new new' : PMap},
    ys.foldlM copyRecord new = .ok new' → Run (Answered fnv1a64) new (ys.map setRecord) new'
  | [], _, _, h => by
      cases h
      exact .refl _
  | y :: ys, new, new', h => by
      obtain ⟨new₁, hcopy, h⟩ := Call.bind_eq_ok.mp h
      obtain ⟨⟨new₂, b⟩, hpair, hfst⟩ := Call.map_eq_ok.mp hcopy
      obtain ⟨⟨e, new₃⟩, hset, hpair⟩ := Call.bind_eq_ok.mp hpair
      dsimp only at hpair hfst
      split at hpair
      · next hnone =>
        subst hnone
        cases hpair
        subst hfst
        exact .cons ⟨trivial, hset⟩ (run_of_copyRecord h)
      · cases hpair

/-- What a run of requests has led to. -/
theorem lived_run {path : String} {size : ℕ} {evs reqs : List (Op × Option Error)}
    (hsize : size ≤ 2 ^ 32) (ho : Orderly size evs)
    (hrun : Run (Answered fnv1a64) (new path size) reqs c) (hreqs : ∀ ev ∈ reqs, ev ∈ evs) :
    c.Lived size evs ((Ledger.new size).run fnv1a64 reqs) :=
  hrun.simulates_on (fun hev h hs => h.request ho hsize hev hs) hreqs (lived_new path size evs)

theorem mem_of_offered_setRecord {ys : List Record} {r : Record}
    (h : r ∈ offered (ys.map setRecord)) : r ∈ ys := by
  obtain ⟨ev, hev, hsome⟩ := List.mem_filterMap.mp h
  obtain ⟨y, hy, rfl⟩ := List.mem_map.mp hev
  split at hsome
  · rwa [← Option.some.inj hsome]
  · cases hsome

section Defragment

variable {size : ℕ} {evs : List (Op × Option Error)}

/-- The records of a life, as requests. -/
theorem Lived.orderly (h : c.Lived size evs L) (ho : Orderly size evs) {ys : List Record}
    (hys : ∀ y ∈ ys, y ∈ L.log ∧ y.val ≠ []) : Orderly size (ys.map setRecord) where
  key ev hev := by
    obtain ⟨y, hy, rfl⟩ := List.mem_map.mp hev
    obtain ⟨ev', hev', hkey⟩ := h.keys y (hys y hy).1
    rw [show (setRecord y).1.key = ev'.1.key from hkey.symm]
    exact ho.key ev' hev'
  single r hr r' hr' :=
    have hr := hys r (mem_of_offered_setRecord hr)
    have hr' := hys r' (mem_of_offered_setRecord hr')
    ho.single r (h.source r hr.1 hr.2) r' (h.source r' hr'.1 hr'.2)
  late r hr :=
    have hr := hys r (mem_of_offered_setRecord hr)
    ho.late r (h.source r hr.1 hr.2)
  granted ev hev hdenied := by
    obtain ⟨y, -, rfl⟩ := List.mem_map.mp hev
    cases hdenied

/-- **A defragmentation** rebuilds the chunk. -/
theorem Lived.defragment (h : c.Lived size evs L) (ho : Orderly size evs) (hsize : size ≤ 2 ^ 28)
    (path : String) :
    ∃ c' L', c.defragment path size = .ok c' ∧ c'.Lived size evs L' ∧ L'.dict = L.dict := by
  have hu := h.undisturbed ho hsize
  have hys : ∀ y ∈ c.shownRecords L.log, y ∈ L.log ∧ y.val ≠ [] := fun y hy => by
    obtain ⟨p, hp, hx, rfl⟩ := mem_shownRecords hy
    obtain ⟨off, -, hr⟩ := recordAt_of_located hp
    exact ⟨mem_of_recordAt hr, hu.tombstones p hp hx⟩
  have htaken : Taken [] (c.shownRecords L.log) := ⟨fun y hy =>
    (h.sound.timed y (hys y hy).1).resolve_right (hys y hy).2, hu.below⟩
  rcases h.foldlM_shownRecords h.sound h.sized path with ⟨-, c', N, hfold, hc⟩ | ⟨hnot, -⟩
  · have h' := lived_run (hsize.trans (by decide)) (h.orderly ho hys) (run_of_copyRecord hfold)
      fun _ hev => hev
    refine ⟨c', _, (h.defragment_eq hu.answers path size).trans hfold, { h' with
      keys := fun r hr => ?_
      source := fun r hr hval => ?_ }, ?_⟩
    · obtain ⟨ev, hev, hkey⟩ := h'.keys r hr
      obtain ⟨y, hy, rfl⟩ := List.mem_map.mp hev
      obtain ⟨ev', hev', hkey'⟩ := h.keys y (hys y hy).1
      exact ⟨ev', hev', hkey'.trans hkey⟩
    · have hr := hys r (mem_of_offered_setRecord (h'.source r hr hval))
      exact h.source r hr.1 hr.2
    · rw [← h'.value_eq, hc.value_eq, hc.dict_eq, ← h.value_eq]
      exact funext fun k => (firsts_shownRecords c L.log k).trans (hu.first k)
  · exact absurd htaken hnot

end Defragment

/-! ## Lives -/

/-- What happens to the `PMap` of a chunk. -/
inductive Deed
  | request (op : Op) (e : Option Error)
  | defragment (path : String)
  | reopen (path : String)

/-- The deed takes the `PMap` `c` to `c'`. -/
def Lives (c : PMap) : Deed → PMap → Prop
  | .request op e, c' => Answered fnv1a64 c (op, e) c'
  | .defragment path, c' => c.defragment path c.st.size = .ok c'
  | .reopen path, c' => PMap.open path c.close = .ok c'

/-- The request of a deed. -/
def Deed.asks : Deed → Option (Op × Option Error)
  | .request op e => some (op, e)
  | _ => none

/-- What a deed makes of the dictionary: a request what the reference map says, the others
nothing. -/
def Deed.step (m : Dict) : Deed → Dict
  | .request op e => m.step (op, e)
  | _ => m

end PMap

/-- The answer of the reference map, in which there is room for every pair. -/
def Dict.answer (m : Dict) : Op → Option Error
  | .set _ v => if v.length < 8 then some .setValueLen else none
  | .cas k v => if v.length < 24 then some .casValueLen else Ledger.casTest (m k) v
  | .del _ _ => none

/-- **The answers of a ledger** are those of its dictionary, or that there is no room. -/
theorem Ledger.answer_cases (L : Ledger) (op : Op) :
    L.answer false op = L.dict.answer op ∨ L.answer false op = some .storeLimit := by
  have hput : ∀ k v, L.putAnswer k v = none ∨ L.putAnswer k v = some .storeLimit :=
    fun k v => ite_eq_or_eq _ _ _
  cases op with
  | set k v =>
    by_cases hv : v.length < 8
    · exact Or.inl (by rw [answer, Dict.answer, if_pos hv, if_pos hv])
    · rw [answer_set L rfl hv, Dict.answer, if_neg hv]
      split
      · exact hput k v
      · split
        · exact Or.inl rfl
        · exact hput k v
  | cas k v =>
    by_cases hv : v.length < 24
    · exact Or.inl (by rw [answer, Dict.answer, if_pos hv, if_pos hv])
    · rw [answer_cas L rfl hv, Dict.answer, if_neg hv]
      split
      · next htest => exact Or.inl htest.symm
      · next htest =>
        rw [htest]
        exact hput k _
  | del k v =>
    rw [answer, Dict.answer]
    split
    · exact Or.inl rfl
    · split
      · exact Or.inl rfl
      · exact hput k []

namespace PMap

variable {path : String} {size : ℕ} {deeds : List Deed} {c : PMap}

/-- `c` has lived on the requests `evs`, and is the dictionary `m`. -/
def Leads (size : ℕ) (evs : List (Op × Option Error)) (c : PMap) (m : Dict) : Prop :=
  ∃ L, c.Lived size evs L ∧ L.dict = m

/-- **A reopening** returns the same dictionary, or fewer than four bytes are left. -/
theorem Leads.reopen {evs : List (Op × Option Error)} {m : Dict} (h : c.Leads size evs m)
    (ho : Orderly size evs) (hsize : size ≤ 2 ^ 28) (path : String) :
    (PMap.open path c.close).Ends (fun _ => size < c.st.length + 4)
      fun c' => c'.Leads size evs m := by
  obtain ⟨L, h, rfl⟩ := h
  by_cases hfree : c.st.length + 4 ≤ size
  · obtain ⟨c', L', hx, h', hdict⟩ := h.reopen hsize hfree path
    rw [hx]
    exact ⟨L', h', hdict⟩
  · cases hx : PMap.open path c.close with
    | error f => exact not_le.mp hfree
    | ok c' => exact absurd (h.room_of_open ho hx) hfree

/-- **A defragmentation** returns the same dictionary. -/
theorem Leads.defragment {evs : List (Op × Option Error)} {m : Dict} (h : c.Leads size evs m)
    (ho : Orderly size evs) (hsize : size ≤ 2 ^ 28) (path : String) :
    ∃ c', c.defragment path size = .ok c' ∧ c'.Leads size evs m := by
  obtain ⟨L, h, rfl⟩ := h
  obtain ⟨c', L', hx, h', hdict⟩ := h.defragment ho hsize path
  exact ⟨c', hx, L', h', hdict⟩

/-- **One deed.** -/
theorem Leads.step {evs : List (Op × Option Error)} {m : Dict} {deed : Deed} {c' : PMap}
    (h : c.Leads size evs m) (ho : Orderly size evs) (hsize : size ≤ 2 ^ 28)
    (hev : ∀ ev, deed.asks = some ev → ev ∈ evs) (hs : c.Lives deed c') :
    c'.Leads size evs (deed.step m) := by
  cases deed with
  | request op e =>
    obtain ⟨L, h, rfl⟩ := h
    exact ⟨_, h.request ho (hsize.trans (by decide)) (hev _ rfl) hs, L.dict_apply fnv1a64 (op, e)⟩
  | defragment path =>
    have hst : c.st.size = size := by
      obtain ⟨L, h, -⟩ := h
      exact h.size_eq.trans h.sized
    obtain ⟨c₁, hx, h'⟩ := h.defragment ho hsize path
    rw [Lives, hst, hx] at hs
    exact Except.ok.inj hs ▸ h'
  | reopen path => exact (h.reopen ho hsize path).returns c' hs

/-- **The answer to a request** is that of the reference map, or that there is no room. -/
theorem Leads.answer {evs : List (Op × Option Error)} {m : Dict} {op : Op} {e : Option Error}
    {c' : PMap} (h : c.Leads size evs m) (hsize : size ≤ 2 ^ 28)
    (hs : Answered fnv1a64 c (op, e) c') : e = m.answer op ∨ e = some .storeLimit := by
  obtain ⟨L, h, rfl⟩ := h
  have hstep := hs.step (h.sized.trans_le (hsize.trans (by decide))) h.toRefines
  have hans := (hstep.refines h.toRefines).1
  rw [(h.size_lt hsize).2] at hans
  rw [show e = _ from hans]
  exact L.answer_cases op

/-- The requests among the deeds. -/
def asked (deeds : List Deed) : List (Op × Option Error) := deeds.filterMap Deed.asks

/-- **Every life** of a chunk of at most 256 MiB, on orderly requests: the dictionary is the
reference map of the requests. -/
theorem leads_run {evs : List (Op × Option Error)} (hsize : size ≤ 2 ^ 28) (ho : Orderly size evs)
    (hevs : ∀ ev ∈ asked deeds, ev ∈ evs) (hrun : Run Lives (new path size) deeds c) :
    c.Leads size evs (deeds.foldl Deed.step fun _ => none) :=
  hrun.simulates_on (P := fun deed => ∀ ev, deed.asks = some ev → ev ∈ evs)
    (fun hev h hs => h.step ho hsize hev hs)
    (fun deed hdeed ev hask => hevs ev (List.mem_filterMap.mpr ⟨deed, hdeed, hask⟩))
    ⟨_, lived_new path size evs, rfl⟩

/-- **Nothing that happens to a chunk shows.**  In a chunk of at most 256 MiB that serves orderly
requests and is defragmented and reopened at any time, every request is answered as the reference
map says, unless there is no room for it, and every key has the value of the reference map.  It can
be defragmented again, and reopened if four bytes are left. -/
theorem life_refines (hsize : size ≤ 2 ^ 28) (hrun : Run Lives (new path size) deeds c)
    (ho : Orderly size (asked deeds)) :
    (∀ pre op e post, deeds = pre ++ .request op e :: post →
      e = Dict.answer (pre.foldl Deed.step fun _ => none) op ∨ e = some .storeLimit)
    ∧ (∀ k, 2 ≤ (fnv1a64 k).toUInt32 → c.get (fnv1a64 k).toUInt32 k
      = .ok (deeds.foldl Deed.step (fun _ => none) k))
    ∧ (∀ path', ∃ c', c.Lives (.defragment path') c')
    ∧ (∀ path', c.st.length + 4 ≤ size → ∃ c', c.Lives (.reopen path') c') := by
  obtain ⟨L, h, hdict⟩ := leads_run hsize ho (fun _ hev => hev) hrun
  refine ⟨?_, fun k hk => ?_, fun path' => ?_, fun path' hfree => ?_⟩
  · rintro pre op e post rfl
    obtain ⟨c₁, hpre, hpost⟩ := hrun.split
    have h₁ := leads_run hsize ho (fun ev hev => by
      rw [asked, List.filterMap_append]
      exact List.mem_append_left _ hev) hpre
    cases hpost with
    | cons hs _ => exact h₁.answer hsize hs
  · rw [h.get_eq hk, hdict]
  · obtain ⟨c', -, hx, -⟩ := h.defragment ho hsize path'
    exact ⟨c', by rwa [Lives, h.size_eq.trans h.sized]⟩
  · obtain ⟨c', -, hx, -⟩ := h.reopen hsize hfree path'
    exact ⟨c', hx⟩

/-- A pair that is overwritten, and the chunk defragmented. -/
theorem life_refines_rebuilt : ∃ c, Run Lives (new "" 200)
      [.request (.set [1] (stamped 900000000000 [7])) none,
        .request (.set [1] (stamped 900000000001 [8])) none, .defragment ""] c
    ∧ c.get (fnv1a64 [1]).toUInt32 [1] = .ok (some (stamped 900000000001 [8])) := by
  obtain ⟨c, hrun, -⟩ := exists_run fnv1a64 (new "" 200)
    [(.set [1] (stamped 900000000000 [7]), none), (.set [1] (stamped 900000000001 [8]), none)]
    (fun c => .ok c.hm.numStoredKeys) 1 (by decide) (by decide +kernel)
  have ho : Orderly 200 [(.set [1] (stamped 900000000000 [7]), none),
      (.set [1] (stamped 900000000001 [8]), none)] :=
    ⟨by decide +kernel, by decide +kernel, by decide +kernel, fun ev hev _ => by
      rcases List.mem_cons.mp hev with rfl | hev
      · exact ⟨_, _, rfl⟩
      · exact ⟨_, _, congrArg Prod.fst (List.mem_singleton.mp hev)⟩⟩
  have hlives : Run Lives (new "" 200) [.request (.set [1] (stamped 900000000000 [7])) none,
      .request (.set [1] (stamped 900000000001 [8])) none] c := by
    cases hrun with
    | cons h₁ hrun =>
      cases hrun with
      | cons h₂ hrun => exact .cons h₁ (.cons h₂ (by cases hrun; exact .refl _))
  obtain ⟨c', hdefrag⟩ := (life_refines (by decide) hlives ho).2.2.1 ""
  have hrun' := hlives.append (.cons hdefrag (.refl _))
  refine ⟨c', hrun', ?_⟩
  rw [(life_refines (by decide) hrun' ho).2.1 [1] (by decide +kernel)]
  decide +kernel

end PMap

end Treeless
