import Treeless.Core.Life

/-!
# Core/Torn — a process that ends in the middle of a `put`

A `put` makes five writes, and the length of the store is known to the process only:

    key length ──▸ value length ──▸ key ──▸ value ──▸ key length + value length

Of the write that is under way any bytes may have reached the file (`Store.Torn`).  What the next
process finds behind the log is one record more, whose key and value are fragments of those that
were put (`Torn.exists_shows`), and its scan ends behind it: nothing that was in the log is lost.
-/

namespace Treeless

/-- What is there of a record when one of its fields is written, and the field. -/
inductive Record.Writes (r : Record) : Bytes → Bytes → Prop
  | keyLen : r.Writes [] (leBytes 4 r.key.length)
  | valLen : r.Writes (leBytes 4 r.key.length) (leBytes 4 r.val.length)
  | key : r.Writes (leBytes 4 r.key.length ++ leBytes 4 r.val.length) r.key
  | val : r.Writes (leBytes 4 r.key.length ++ leBytes 4 r.val.length ++ r.key) r.val
  | totalLen : r.Writes (leBytes 4 r.key.length ++ leBytes 4 r.val.length ++ r.key ++ r.val)
      (leBytes 4 (r.key.length + r.val.length))

namespace Store

variable {st : Store} {r : Record} {m : Mem}

/-! ## The writes of a `put` -/

/-- `put`, with the file before and after each of its writes. -/
def putFiles (st : Store) (key val : Bytes) : Call (Except Error (List Mem)) :=
  let size := 4 + 4 + 4 + key.length + val.length
  if st.length + size ≥ st.size then .ok (.error .storeLimit)
  else do
    let index := st.length
    let st₁ ← st.setKeyLen index key.length
    let st₂ ← st₁.setValLen index val.length
    let k ← st₂.keySlice index
    let st₃ := st₂.copy k key
    let v ← st₃.valSlice index
    let st₄ := st₃.copy v val
    let st₅ ← st₄.putUint32 (index + 8 + key.length + val.length) (key.length + val.length)
    return .ok [st.file, st₁.file, st₂.file, st₃.file, st₄.file, st₅.file]

/-- The file that a process leaves which ends during a `put`: between two writes, or in the middle
of one, with any of its bytes written. -/
def Torn (st : Store) (r : Record) (m : Mem) : Prop :=
  ∃ files n before after, st.putFiles r.key r.val = .ok (.ok files) ∧ files[n]? = some before
    ∧ files[n + 1]? = some after ∧ ∀ i, m i = before i ∨ m i = after i

/-- **Each write appends a field** of the record to those that are there. -/
theorem putFiles_eq {key val : Bytes} (hroom : st.length + (Record.mk key val).size < st.size)
    (hshort : key.length + val.length < 2 ^ 32) :
    st.putFiles key val = .ok (.ok ([[], leBytes 4 key.length,
      leBytes 4 key.length ++ leBytes 4 val.length,
      leBytes 4 key.length ++ leBytes 4 val.length ++ key,
      leBytes 4 key.length ++ leBytes 4 val.length ++ key ++ val,
      (Record.mk key val).encode].map (st.file.write st.length))) := by
  rw [Record.size_mk] at hroom
  have h1 : st.setKeyLen st.length key.length = .ok (st.poke st.length (leBytes 4 key.length)) :=
    putUint32_eq (by omega)
  have h2 : (st.poke st.length (leBytes 4 key.length)).setValLen st.length val.length
      = .ok (st.poke st.length (leBytes 4 key.length ++ leBytes 4 val.length)) := by
    rw [setValLen, headerValueOffset, putUint32_eq (by rw [size_poke]; omega),
      poke_poke (by rw [length_leBytes])]
  have hhead : ∀ bs, (st.poke st.length (leBytes 4 key.length ++ leBytes 4 val.length ++ bs)).Header
      st.length key.length val.length := fun bs => header_poke bs (by omega) hshort
  have hk := (hhead []).keySlice_eq
  rw [List.append_nil] at hk
  have h3 : (st.poke st.length (leBytes 4 key.length ++ leBytes 4 val.length)).copy
        ⟨st.length + 8, key.length⟩ key
      = st.poke st.length (leBytes 4 key.length ++ leBytes 4 val.length ++ key) := by
    rw [copy_eq rfl, poke_poke (by simp)]
  have h4 : (st.poke st.length (leBytes 4 key.length ++ leBytes 4 val.length ++ key)).copy
        ⟨st.length + 8 + key.length, val.length⟩ val
      = st.poke st.length (leBytes 4 key.length ++ leBytes 4 val.length ++ key ++ val) := by
    rw [copy_eq rfl, poke_poke (by simp only [List.length_append, length_leBytes]; omega)]
  have h5 :
      (st.poke st.length (leBytes 4 key.length ++ leBytes 4 val.length ++ key ++ val)).putUint32
        (st.length + 8 + key.length + val.length) (key.length + val.length)
      = .ok (st.poke st.length (Record.mk key val).encode) := by
    rw [putUint32_eq (by rw [size_poke]; omega),
      poke_poke (by simp only [List.length_append, length_leBytes]; omega), Record.encode]
  have h0 : st.file = st.file.write st.length [] := by
    funext i
    exact (Mem.write_apply_of_outside _ (by rw [List.length_nil]; omega)).symm
  rw [putFiles]
  dsimp only
  rw [if_neg (by omega), h1, Call.ok_bind, h2, Call.ok_bind, hk, Call.ok_bind, h3,
    (hhead key).valSlice_eq, Call.ok_bind, h4, h5, Call.ok_bind]
  simp only [List.map_cons, List.map_nil, ← h0]
  rfl

/-- The last of the files is the one `put` leaves. -/
theorem file_put {key val : Bytes} (hroom : st.length + (Record.mk key val).size < st.size)
    (hshort : key.length + val.length < 2 ^ 32) :
    ∃ files index st', st.putFiles key val = .ok (.ok files)
      ∧ st.put key val = .ok (.ok (index, st'))
      ∧ files.getLast? = some st'.file :=
  ⟨_, _, _, putFiles_eq hroom hshort, put_eq hroom hshort, rfl⟩

/-! ## What is left of a record -/

/-- The fields that are read of a record, one behind the other. -/
theorem shows_of_holds {index : ℕ} (hm : st.file.Holds index
      (leBytes 4 r.key.length ++ leBytes 4 r.val.length ++ r.key ++ r.val))
    (hfits : index + r.size ≤ st.size) (hshort : r.key.length + r.val.length < 2 ^ 32) :
    st.Shows index r := by
  simp only [Mem.holds_append, List.length_append, length_leBytes] at hm
  obtain ⟨⟨⟨hk, hv⟩, hkey⟩, hval⟩ := hm
  rw [Record.size] at hfits
  refine ⟨⟨hk, hv, by omega, hshort⟩, hkey, ?_⟩
  rwa [← Nat.add_assoc] at hval

/-- A record that starts what was written behind the log, zeros included. -/
theorem shows_of_write {r' : Record} {bs rest : Bytes} {n : ℕ}
    (hzero : ∀ i, st.length ≤ i → st.file i = 0)
    (hbs : bs ++ List.replicate n 0
      = leBytes 4 r'.key.length ++ leBytes 4 r'.val.length ++ r'.key ++ r'.val ++ rest)
    (hlen : bs.length ≤ r'.size) (hfits : st.length + r'.size ≤ st.size)
    (hshort : r'.key.length + r'.val.length < 2 ^ 32) :
    ({ st with file := st.file.write st.length bs } : Store).Shows st.length r'
      ∧ (∀ i < st.length, st.file.write st.length bs i = st.file i)
      ∧ ∀ i, st.length + r'.size ≤ i → st.file.write st.length bs i = 0 := by
  refine ⟨shows_of_holds ?_ hfits hshort, fun i hi => ?_, fun i hi => ?_⟩
  · have hm := Mem.holds_write_zeros hzero bs n
    rw [hbs, Mem.holds_append] at hm
    exact hm.1
  · exact Mem.write_apply_of_outside _ (Or.inl hi)
  · rw [Mem.write_apply_of_outside _ (Or.inr (by omega)), hzero i (by omega)]

/-- **A torn file** has a fragment of one field, behind those before it. -/
theorem Torn.exists_part (h : st.Torn r m) (hzero : ∀ i, st.length ≤ i → st.file i = 0)
    (hroom : st.length + r.size < st.size) (hshort : r.key.length + r.val.length < 2 ^ 32) :
    ∃ done field part, r.Writes done field ∧ part.length = field.length ∧ Fragment part field
      ∧ m = st.file.write st.length (done ++ part) := by
  obtain ⟨files, n, before, after, hfiles, hn, hn', hm⟩ := h
  rw [putFiles_eq hroom hshort] at hfiles
  obtain rfl := Except.ok.inj (Except.ok.inj hfiles)
  have hwrite : ∃ done field, r.Writes done field ∧ st.file.write st.length done = before
      ∧ st.file.write st.length (done ++ field) = after := by
    rcases n with _ | _ | _ | _ | _ | n
    · exact ⟨_, _, .keyLen, Option.some.inj hn, Option.some.inj hn'⟩
    · exact ⟨_, _, .valLen, Option.some.inj hn, Option.some.inj hn'⟩
    · exact ⟨_, _, .key, Option.some.inj hn, Option.some.inj hn'⟩
    · exact ⟨_, _, .val, Option.some.inj hn, Option.some.inj hn'⟩
    · exact ⟨_, _, .totalLen, Option.some.inj hn, Option.some.inj hn'⟩
    · cases hn'
  obtain ⟨done, field, hw, rfl, rfl⟩ := hwrite
  obtain ⟨part, hpart⟩ := Mem.exists_fragment hzero hm
  exact ⟨done, field, part, hw, hpart⟩

/-- **A torn record** is read as one of fragments, with nothing behind it. -/
theorem Torn.exists_shows (h : st.Torn r m) (hzero : ∀ i, st.length ≤ i → st.file i = 0)
    (hroom : st.length + r.size < st.size) (hshort : r.key.length + r.val.length < 2 ^ 32) :
    ∃ r' : Record, Fragment r'.key r.key ∧ Fragment r'.val r.val ∧ r'.size ≤ r.size
      ∧ ({ st with file := m } : Store).Shows st.length r'
      ∧ (∀ i < st.length, m i = st.file i) ∧ ∀ i, st.length + r'.size ≤ i → m i = 0 := by
  obtain ⟨done, field, part, hw, hlen, hpart, rfl⟩ := h.exists_part hzero hroom hshort
  -- with its last field completed by zeros, what is written is the record `r'` and perhaps more
  suffices hr : ∃ (r' : Record) (n : ℕ) (rest : Bytes), Fragment r'.key r.key
      ∧ Fragment r'.val r.val ∧ r'.key.length ≤ r.key.length ∧ r'.val.length ≤ r.val.length
      ∧ (done ++ part).length ≤ r'.size ∧ done ++ part ++ List.replicate n 0
        = leBytes 4 r'.key.length ++ leBytes 4 r'.val.length ++ r'.key ++ r'.val ++ rest by
    obtain ⟨r', n, rest, hkey, hval, hk, hv, hsize, hbs⟩ := hr
    have hle : r'.size ≤ r.size := by
      rw [Record.size, Record.size]
      omega
    exact ⟨r', hkey, hval, hle, shows_of_write hzero hbs hsize (by omega) (by omega)⟩
  have hk32 : r.key.length < 256 ^ 4 := by omega
  have hv32 : r.val.length < 256 ^ 4 := by omega
  cases hw with
  | keyLen =>
    obtain ⟨w, hw, rfl⟩ := hpart.exists_word (hlen.trans (length_leBytes ..)) hk32
    have hzeros : List.replicate (4 + w) 0 = leBytes 4 0 ++ List.replicate w 0 :=
      List.replicate_add ..
    refine ⟨⟨List.replicate w 0, []⟩, 4 + w, [], .zeros hw, trivial, ?_, Nat.zero_le _, ?_, ?_⟩
    · rwa [List.length_replicate]
    · simp only [List.nil_append, length_leBytes, Record.size]
      omega
    · rw [hzeros]
      simp
  | valLen =>
    obtain ⟨w, hw, rfl⟩ := hpart.exists_word (hlen.trans (length_leBytes ..)) hv32
    refine ⟨⟨List.replicate r.key.length 0, List.replicate w 0⟩, r.key.length + w, [],
      .zeros le_rfl, .zeros hw, ?_, ?_, ?_, ?_⟩
    · rw [List.length_replicate]
    · rwa [List.length_replicate]
    · simp only [List.length_append, length_leBytes, Record.size]
      omega
    · simp
  | key =>
    refine ⟨⟨part, List.replicate r.val.length 0⟩, r.val.length, [], hpart, .zeros le_rfl, hlen.le,
      ?_, ?_, ?_⟩
    · rw [List.length_replicate]
    · simp only [List.length_append, length_leBytes, Record.size]
      omega
    · simp [hlen]
  | val =>
    refine ⟨⟨r.key, part⟩, 0, [], .refl _, hpart, le_rfl, hlen.le, ?_, ?_⟩
    · simp only [List.length_append, length_leBytes, Record.size]
      omega
    · simp [hlen]
  | totalLen =>
    refine ⟨r, 0, part, .refl _, .refl _, le_rfl, le_rfl, ?_, ?_⟩
    · rw [length_leBytes] at hlen
      simp only [List.length_append, length_leBytes, Record.size]
      omega
    · simp

end Store

namespace PMap

variable {f : File} {log : List Record} {c : PMap} {r : Record}

/-! ## What the next process makes of it -/

/-- What the scan makes of a record, whatever it is: the other keys keep their values. -/
structure Touches (r : Record) (m m' : Dict) : Prop where
  frame : ∀ k, k ≠ r.key → m' k = m k
  value : m' r.key = m r.key ∨ m' r.key = none ∨ m' r.key = some r.val

/-- **`restorePair` returns**, if four bytes are left behind the record. -/
theorem Ordered.restorePair {m : Dict} (h : c.Ordered fnv1a64 log m) (haddr : logSize log < 2 ^ 32)
    (hroom : logSize log + r.size + 4 ≤ c.st.size) :
    ∃ e c' m', c.restorePair r.key ⟨logSize log + 8 + r.key.length, r.val.length⟩
        (UInt32.ofNat (logSize log)) = .ok (e, c')
      ∧ c'.hm.Files fnv1a64 (log ++ [r]) m' ∧ Touches r m m' := by
  have hsize : r.size = 12 + r.key.length + r.val.length := rfl
  have hnew : c.st.first8 ⟨logSize log + 8 + r.key.length, r.val.length⟩
      = .ok (c.st.file.read (logSize log + 8 + r.key.length) 8) := Store.first8_eq (by omega)
  rw [PMap.restorePair]
  rcases HashMap.checkSpace_eq h.files.valid.toShaped with ⟨-, hcs⟩ | ⟨-, hm, hcs, hs⟩
  · rw [hcs, Call.ok_bind]
    exact ⟨_, _, m, rfl, h.files.append r, fun _ _ => rfl, Or.inl rfl⟩
  rw [hcs, Call.ok_bind]
  dsimp only
  have h' := h.spaced hs
  have hupdate : ∀ v, v = none ∨ v = some r.val → Touches r m (Function.update m r.key v) :=
    fun v hv => ⟨fun _ hk => Function.update_of_ne hk .., by
      rw [Function.update_self]
      exact Or.inr hv⟩
  cases hk : m r.key with
  | none =>
    obtain ⟨i, hi, hsearch, hf, hl⟩ := h'.search_empty hk
    rw [hashReMap_eq, hsearch, Call.ok_bind]
    dsimp only [occupy]
    rw [hnew, Call.ok_bind]
    exact ⟨_, _, _, rfl, h'.files.file
      (h'.files.filed_fill hk hi hf hl (hs.room h.files.valid) haddr) r.val, hupdate _ (Or.inr rfl)⟩
  | some v =>
    obtain ⟨i, hi, hsearch, hi2, ht⟩ := h'.search_found hk
    have hold : c.st.first8 ⟨(hm.getStoreIndex i).toNat + 8 + r.key.length, v.length⟩
        = .ok (c.st.file.read ((hm.getStoreIndex i).toNat + 8 + r.key.length) 8) := by
      have hle := add_size_le_of_recordAt ht
      change (hm.getStoreIndex i).toNat + (12 + r.key.length + v.length) ≤ logSize log at hle
      exact Store.first8_eq (by omega)
    rw [hashReMap_eq, hsearch, Call.ok_bind]
    dsimp only
    rw [(h'.shows ht).valSlice_eq, Call.ok_bind, hnew, Call.ok_bind, hold, Call.ok_bind]
    split
    · exact ⟨_, _, _, rfl, h'.files.file (h'.files.filed_point hi hi2 ht haddr) r.val,
        hupdate _ (Or.inr rfl)⟩
    · exact ⟨_, _, _, rfl, (h'.files.setDeleted hi hi2 ht).append r, hupdate _ (Or.inl rfl)⟩

/-- **The last turn of the loop**, at a record of any kind with zeros behind it. -/
theorem Restored.restoreLoop_last (h : Restored f log c) (hr : c.st.Shows (logSize log) r)
    (haddr : logSize log < 2 ^ 32) (hroom : logSize log + r.size + 4 ≤ f.size)
    (hzero : ∀ i, logSize log + r.size ≤ i → f.bytes i = 0) (fuel : ℕ) :
    ∃ c' log' m', restoreLoop c (fuel + 2) (logSize log) = .ok c' ∧ c'.Ordered fnv1a64 log' m'
      ∧ Touches r (replay fnv1a64 log).dict m' := by
  rw [restoreLoop, hr.keyLen_eq, Call.ok_bind]
  split
  · exact ⟨c, log, _, rfl, h.toDenotes.ordered, fun _ _ => rfl, Or.inl rfl⟩
  · obtain ⟨e, c₁, m', hpair, hfiles, htouch⟩ :=
      h.toDenotes.ordered.restorePair (r := r) haddr (h.size_eq ▸ hroom)
    obtain ⟨hfile, hsize⟩ := c.file_restorePair _ _ _ _ hpair
    have hshows : ∀ {off : ℕ} {r' : Record}, c.st.Shows off r' →
        (c₁.endBehind (logSize log) r).st.Shows off r' := fun h' =>
      h'.congr (fun _ _ => congrFun hfile _) hsize
    have hloop : restoreLoop (c₁.endBehind (logSize log) r) (fuel + 1) (logSize log + r.size)
        = .ok (c₁.endBehind (logSize log) r) := by
      refine restoreLoop_end ?_ (fun i hi => ?_) fuel
      · exact (hsize.trans h.size_eq).symm ▸ hroom
      · exact (congrFun (hfile.trans h.file_eq) i).trans (hzero i hi)
    rw [restoreRecord_eq hr, hpair]
    refine ⟨_, log ++ [r], m', hloop, ⟨hfiles, fun off r' hr' => ?_⟩, htouch⟩
    rcases recordAt_append_singleton hr' with hr' | ⟨rfl, rfl⟩
    · exact hshows (h.toDenotes.ordered.readable off r' hr')
    · exact hshows hr

/-- **A torn `put` reaches one key**: whatever happened to a chunk of at most 256 MiB before it, the
next process opens the file, and finds every key as it was, unless the key is a fragment of the one
that was put; then `Get` returns a fragment of the value, or the key is gone. -/
theorem torn_put_kept {path : String} {size : ℕ} {deeds : List Deed} {m : Mem}
    (hsize : size ≤ 2 ^ 28) (hrun : Run Lives (new path size) deeds c)
    (ho : Orderly size (asked deeds)) (htorn : c.st.Torn r m)
    (hroom : c.st.length + r.size + 4 ≤ size) (path' : String) :
    ∃ c', PMap.open path' ⟨size, m⟩ = .ok c'
      ∧ ∀ k, 2 ≤ (fnv1a64 k).toUInt32 →
        c'.get (fnv1a64 k).toUInt32 k = .ok (deeds.foldl Deed.step (fun _ => none) k)
        ∨ Fragment k r.key ∧ ∃ v, c'.get (fnv1a64 k).toUInt32 k = .ok v
          ∧ ∀ bs, v = some bs → Fragment bs r.val := by
  obtain ⟨L, h, hdict⟩ := leads_run hsize ho (fun _ hev => hev) hrun
  have hst : c.st.size = size := h.size_eq.trans h.sized
  have hlen := h.isLog.length_eq
  have h28 : c.st.length + r.size < 2 ^ 28 := by omega
  have hrsize : r.size = 12 + r.key.length + r.val.length := rfl
  obtain ⟨r', hkey, hval, hle, hshows, hbelow, hzero⟩ :=
    htorn.exists_shows h.zero (by omega) (by omega)
  have hcount := length_le_logSize L.log
  have hlevel : (replay fnv1a64 L.log).log2 ≤ 26 :=
    ((paced_replay fnv1a64 L.log).log2_lt (by omega)).le
  have hlog : m.Holds 0 (L.log.flatMap Record.encode) := h.isLog.holds.congr fun i _ hi => by
    rw [Nat.zero_add, Store.length_flatMap_encode, ← hlen] at hi
    exact (hbelow i hi).symm
  obtain ⟨c₁, hwalk, h₁, -⟩ := (restored_start path' ⟨size, m⟩).restoreLoop_walk
    (show Mem.Holds m 0 (([] ++ L.log).flatMap Record.encode) from hlog)
    (show logSize L.log + 4 ≤ size by omega) (show logSize L.log ≤ 2 ^ 32 by omega) h.reads hlevel
    (size - 1 - L.log.length + 2)
  replace h₁ : Restored ⟨size, m⟩ L.log c₁ := h₁
  have hshows₁ : c₁.st.Shows (logSize L.log) r' := hlen ▸ hshows.congr
    (fun i _ => congrFun h₁.file_eq i) (h₁.size_eq.trans hst.symm)
  have haddr : logSize L.log < 2 ^ 32 := by omega
  have hzero₁ : ∀ i, logSize L.log + r'.size ≤ i → m i = 0 := hlen ▸ hzero
  obtain ⟨c', log', m', hloop, ho', htouch⟩ := h₁.restoreLoop_last hshows₁ haddr
    (show logSize L.log + r'.size + 4 ≤ size by omega) hzero₁ (size - 1 - L.log.length)
  refine ⟨c', ?_, fun k hk => ?_⟩
  · have hfuel : L.log.length + (size - 1 - L.log.length + 2) = size + 1 := by omega
    rw [hfuel] at hwalk
    exact hwalk.trans hloop
  · have hdict' : (replay fnv1a64 L.log).dict = deeds.foldl Deed.step fun _ => none :=
      h.dict_eq.trans hdict
    rw [ho'.get_eq hk, ← hdict']
    by_cases hkk : k = r'.key
    · subst hkk
      rcases htouch.value with hv | hv | hv
      · exact Or.inl (congrArg _ hv)
      · exact Or.inr ⟨hkey, _, rfl, fun bs hbs => by cases hv.symm.trans hbs⟩
      · exact Or.inr ⟨hkey, _, rfl, fun bs hbs => Option.some.inj (hv.symm.trans hbs) ▸ hval⟩
    · exact Or.inl (congrArg _ (htouch.frame k hkk))

/-- A process that ends after it has written the lengths of a second pair. -/
theorem torn_put_kept_lengths : ∃ c m c', Run Lives (new "" 200)
      [.request (.set [1] (stamped 900000000000 [7])) none] c
    ∧ c.st.Torn ⟨[2], stamped 900000000001 [8]⟩ m ∧ PMap.open "" ⟨200, m⟩ = .ok c'
    ∧ c'.get (fnv1a64 [1]).toUInt32 [1] = .ok (some (stamped 900000000000 [7])) := by
  obtain ⟨c, hrun, hobs⟩ := exists_run fnv1a64 (new "" 200)
    [(.set [1] (stamped 900000000000 [7]), none)] (fun c => .ok (c.st.length, c.st.size)) (22, 200)
    (by decide) (by decide +kernel)
  obtain ⟨hlen, hsize⟩ := Prod.mk.inj (Except.ok.inj hobs)
  have hlives : Run Lives (new "" 200) [.request (.set [1] (stamped 900000000000 [7])) none] c := by
    cases hrun with
    | cons h hrun => exact .cons h (by cases hrun; exact .refl _)
  have ho : Orderly 200 [(.set [1] (stamped 900000000000 [7]), none)] :=
    ⟨by decide +kernel, by decide +kernel, by decide +kernel, fun ev hev _ =>
      ⟨_, _, congrArg Prod.fst (List.mem_singleton.mp hev)⟩⟩
  have hroom : c.st.length + (Record.mk [2] (stamped 900000000001 [8])).size < c.st.size := by
    rw [hlen, hsize]
    decide
  have htorn : c.st.Torn ⟨[2], stamped 900000000001 [8]⟩
      (c.st.file.write c.st.length (leBytes 4 1 ++ leBytes 4 9)) :=
    ⟨_, 2, _, _, Store.putFiles_eq hroom (by decide), rfl, rfl, fun _ => Or.inl rfl⟩
  obtain ⟨c', hopen, hget⟩ := torn_put_kept (by decide) hlives ho htorn
    (by rw [hlen]; decide) ""
  refine ⟨c, _, c', hlives, htorn, hopen, ?_⟩
  rcases hget [1] (by decide +kernel) with hk | ⟨hk, -⟩
  · rw [hk]
    decide +kernel
  · exact absurd hk.1 (by decide)

end PMap

end Treeless
