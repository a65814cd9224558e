import Treeless.Machinery.Run
import Treeless.PMap.Search

/-!
# PMap/Refine — a `PMap` follows its ledger

`c.Refines hash L`: the bucket array and the bytes of `c` are those of the ledger `L`.  Each
primitive answers as the ledger does and leaves a `PMap` that refines the ledger it leaves
(`apply_spec`), unless the store is so large that the call leaves the bytes a 32-bit word addresses.
-/

namespace Treeless

namespace HashMap

/-- The array took `n` more buckets into use. -/
def Filled (n : ℕ) (hm hm' : HashMap) : Prop :=
  hm'.sizelog2 = hm.sizelog2 ∧ hm'.numStoredKeys = hm.numStoredKeys + n

/-- The array was doubled first, or not, and then took `n` more buckets into use. -/
def Grown (n : ℕ) (hm hm' : HashMap) : Prop :=
  (hm.sizelog2 < hm'.sizelog2 ∧ hm'.numStoredKeys = hm.liveCount + n) ∨ Filled n hm hm'

theorem Grown.refl (hm : HashMap) : Grown 0 hm hm := Or.inr ⟨rfl, rfl⟩

theorem Spaced.grown {hm hm' : HashMap} (h : Spaced hm hm') : Grown 0 hm hm' := by
  rcases h with ⟨-, rfl⟩ | ⟨-, -, hN⟩
  · exact .refl _
  · exact Or.inl ⟨by rw [hN.log2_eq]; omega, hN.liveCount_eq⟩

theorem Grown.fill {n : ℕ} {hm hm' hm'' : HashMap} (h : Grown 0 hm hm') (h' : Filled n hm' hm'') :
    Grown n hm hm'' := by
  rcases h with ⟨hlt, hst⟩ | ⟨heq, hst⟩
  · exact Or.inl ⟨h'.1 ▸ hlt, by rw [h'.2, hst, Nat.add_zero]⟩
  · exact Or.inr ⟨h'.1.trans heq, by rw [h'.2, hst, Nat.add_zero]⟩

end HashMap

namespace PMap

open HashMap (Filled Grown Spaced)

/-- A call that, if it returns, has put a record past the bytes a 32-bit word addresses. -/
def Overflows (x : Call (Option Error × PMap)) : Prop :=
  ∀ e c', x = .ok (e, c') → e = none ∧ 2 ^ 32 < c'.st.length

/-- `c` is a representation of the ledger `L`. -/
structure Refines (hash : Bytes → UInt64) (c : PMap) (L : Ledger) : Prop
    extends c.Denotes hash L.log L.dict where
  size_eq : c.st.size = L.size
  checksum_eq : c.checksum = L.checksum
  deleted_eq : c.st.deleted = L.deleted

/-- From `L` to `L'` at most one record is written; the bytes of `c'` are those of `st` with that
record, and its buckets are `G n`, for the `n` new buckets the record needs. -/
def Moves (G : ℕ → HashMap → Prop) (st : Store) (L : Ledger) (c' : PMap) (L' : Ledger) : Prop :=
  (L'.log = L.log ∧ c'.st.file = st.file ∧ G 0 c'.hm)
    ∨ ∃ r, L'.log = L.log ++ [r] ∧ c'.st.file = (st.append r).file
      ∧ G (if L.dict r.key = none then 1 else 0) c'.hm

/-- The record of the request `op` would pass the bytes a 32-bit word addresses. -/
def TooFar (c : PMap) (op : Op) : Prop :=
  2 ^ 32 < c.st.length + op.record.size ∧ c.st.length + op.record.size < c.st.size

/-- The request `op`, with the result `x`, does to `c` what it does to the ledger. -/
def Meets (hash : Bytes → UInt64) (c : PMap) (L : Ledger) (op : Op)
    (x : Call (Option Error × PMap)) : Prop :=
  (c.TooFar op ∧ Overflows x)
    ∨ ∃ c', x = .ok (L.answer c.hm.full op, c')
      ∧ c'.Refines hash (L.apply hash (op, L.answer c.hm.full op)) ∧ c'.path = c.path
      ∧ Moves (fun n => Grown n c.hm) c.st L c' (L.apply hash (op, L.answer c.hm.full op))

variable {hash : Bytes → UInt64} {c : PMap} {L : Ledger}

/-- A new `PMap` is a representation of the new ledger. -/
theorem refines_new (hash : Bytes → UInt64) (path : String) (size : ℕ) :
    (new path size).Refines hash (Ledger.new size) :=
  ⟨denotes_new hash path size, rfl, rfl, rfl⟩

namespace Refines

theorem spaced (h : c.Refines hash L) {hm : HashMap} (hs : Spaced c.hm hm) :
    ({ c with hm } : PMap).Refines hash L :=
  ⟨h.toDenotes.spaced hs, h.size_eq, h.checksum_eq, h.deleted_eq⟩

theorem room_iff (h : c.Refines hash L) (k v : Bytes) :
    c.st.length + (Record.mk k v).size < c.st.size ↔ L.Room k v := by
  rw [Ledger.Room, h.size_eq, h.isLog.length_eq]

/-! ## Writing a record -/

/-- The record of a pair, appended to the store of `c`. -/
theorem isLog_append (h : c.Refines hash L) {k v : Bytes}
    (hroom : c.st.length + (Record.mk k v).size < c.st.size)
    (haddr : c.st.length + (Record.mk k v).size ≤ 2 ^ 32) :
    (c.st.append ⟨k, v⟩).IsLog (L.log ++ [⟨k, v⟩]) ∧ logSize L.log < 2 ^ 32 := by
  refine ⟨h.isLog.append hroom.le haddr, ?_⟩
  have h1 := h.isLog.length_eq
  have h2 := (Record.mk k v).twelve_le_size
  omega

/-- **A pair of an absent key, written** into the empty bucket the search found. -/
theorem occupy (h : c.Refines hash L) {k v : Bytes} (hv : 8 ≤ v.length) (hk : L.dict k = none)
    {i : ℕ} (hi : i < c.hm.size) (hf : c.hm.Free i)
    (hl : Linked c.hm.size c.hm.Free ((hashWord hash k).toNat % c.hm.size) i)
    (hfree : c.hm.numStoredKeys < c.hm.numKeysToExpand)
    (hroom : c.st.length + (Record.mk k v).size < c.st.size)
    (haddr : c.st.length + (Record.mk k v).size ≤ 2 ^ 32) :
    ({ hm := c.hm.fill i (hashWord hash k) (UInt32.ofNat c.st.length)
       st := c.st.append ⟨k, v⟩
       checksum := c.checksum.sum (hash k ^^^ uint64 v) (unixTime v)
       path := c.path } : PMap).Refines hash (L.write hash k v) := by
  obtain ⟨hlog, hlt⟩ := h.isLog_append hroom haddr
  refine ⟨⟨?_, hlog⟩, h.size_eq, ?_, h.deleted_eq⟩
  · have := h.index.fill hv hk hi hf hl hfree hlt
    rwa [← h.isLog.length_eq] at this
  · simp only [Ledger.write, Ledger.retract, hk, h.checksum_eq]

/-- **A new pair of a present key, written** for its bucket to point at. -/
theorem pointTo (h : c.Refines hash L) {k v old : Bytes} (hv : 8 ≤ v.length)
    (hk : L.dict k = some old) {i : ℕ} (hi : i < c.hm.size) (hi2 : 2 ≤ c.hm.getHash i)
    (hr : c.hm.target L.log i = some ⟨k, old⟩)
    (hroom : c.st.length + (Record.mk k v).size < c.st.size)
    (haddr : c.st.length + (Record.mk k v).size ≤ 2 ^ 32) :
    ({ hm := c.hm.point i (hashWord hash k) (UInt32.ofNat c.st.length)
       st := c.st.append ⟨k, v⟩
       checksum := (c.checksum.sub (hash k ^^^ uint64 old) (unixTime v)).sum
         (hash k ^^^ uint64 v) (unixTime v)
       path := c.path } : PMap).Refines hash (L.write hash k v) := by
  obtain ⟨hlog, hlt⟩ := h.isLog_append hroom haddr
  refine ⟨⟨?_, hlog⟩, h.size_eq, ?_, h.deleted_eq⟩
  · have := h.index.point hv hi hi2 hr hlt
    rwa [← h.isLog.length_eq] at this
  · simp only [Ledger.write, Ledger.retract, hk, h.checksum_eq]

/-- **The pair of a key, removed** by marking its bucket. -/
theorem markDeleted (h : c.Refines hash L) {k old : Bytes} {i : ℕ} (hi : i < c.hm.size)
    (hi2 : 2 ≤ c.hm.getHash i) (hr : c.hm.target L.log i = some ⟨k, old⟩) (t : Time) :
    ({ hm := c.hm.setHash i deletedBucket
       st := { c.st with deleted := c.st.deleted + (12 + k.length + old.length) }
       checksum := c.checksum.sub (hash k ^^^ uint64 old) t
       path := c.path } : PMap).Refines hash (L.erase hash k old t) := by
  refine ⟨⟨h.index.setDeleted hi hi2 hr, ?_⟩, h.size_eq, ?_, ?_⟩
  · exact ⟨h.isLog.length_eq, h.isLog.holds, h.isLog.fits, h.isLog.addressable⟩
  · simp only [Ledger.erase, h.checksum_eq]
  · simp only [Ledger.erase, h.deleted_eq]

/-- **A tombstone, written** for a key that is absent. -/
theorem bury (h : c.Refines hash L) {k : Bytes} (hk : L.dict k = none)
    (hroom : c.st.length + (Record.mk k []).size < c.st.size)
    (haddr : c.st.length + (Record.mk k []).size ≤ 2 ^ 32) :
    ({ c with st := c.st.append ⟨k, []⟩ } : PMap).Refines hash (L.bury k) :=
  ⟨⟨h.index.tombstone hk [], (h.isLog_append hroom haddr).1⟩, h.size_eq, h.checksum_eq,
    h.deleted_eq⟩

end Refines

/-! ## The primitives -/

section
variable {hm : HashMap} {op : Op} {x : Call (Option Error × PMap)} {e : Option Error}

/-- A call that answers as the ledger does, from the `PMap` the check for space left. -/
theorem Meets.of_grown (hs : Grown 0 c.hm hm) (he : L.answer c.hm.full op = e)
    (hx : (c.TooFar op ∧ Overflows x)
      ∨ ∃ c', x = .ok (e, c') ∧ c'.Refines hash (L.apply hash (op, e)) ∧ c'.path = c.path
        ∧ Moves (fun n => Filled n hm) c.st L c' (L.apply hash (op, e))) :
    Meets hash c L op x := by
  subst he
  rcases hx with hx | ⟨c', hx, hr, hp, ⟨hlog, hfile, hg⟩ | ⟨r, hlog, hfile, hg⟩⟩
  · exact Or.inl hx
  · exact Or.inr ⟨c', hx, hr, hp, Or.inl ⟨hlog, hfile, hs.fill hg⟩⟩
  · exact Or.inr ⟨c', hx, hr, hp, Or.inr ⟨r, hlog, hfile, hs.fill hg⟩⟩

/-- A call that changes nothing but the layout of the array. -/
theorem Meets.same (hs : Grown 0 c.hm hm) (h : ({ c with hm } : PMap).Refines hash L)
    (he : L.answer c.hm.full op = e) (hL : L.apply hash (op, e) = L)
    (hx : x = .ok (e, { c with hm })) : Meets hash c L op x :=
  .of_grown hs he (Or.inr ⟨_, hx, hL.symm ▸ h, rfl, Or.inl ⟨congrArg _ hL, rfl, rfl, rfl⟩⟩)

/-- **A call that ends in a `put`** is denied, or goes on from the store with the record, or leaves
the addressable bytes. -/
theorem Meets.put {c₀ : PMap} {L₀ : Ledger} (h : c₀.Refines hash L₀)
    (hsize : c₀.st.size = c.st.size) (hlength : c₀.st.length = c.st.length) (k v : Bytes)
    (hrec : op.record = ⟨k, v⟩) (c₁ : PMap) (g : UInt32 × Store → Call (Option Error × PMap))
    (hg : ∀ p e c', g p = .ok (e, c') → e = none ∧ c'.st = p.2)
    (hx : ∀ r, c₀.st.put k v = r → x = match r with
      | .error f => .error f
      | .ok (.error e) => .ok (some e, c₁)
      | .ok (.ok p) => g p)
    (hdeny : L₀.putAnswer k v = some .storeLimit → x = .ok (some .storeLimit, c₁) →
      Meets hash c L op x)
    (hput : L₀.putAnswer k v = none → c₀.st.length + (Record.mk k v).size < c₀.st.size →
      c₀.st.length + (Record.mk k v).size ≤ 2 ^ 32 →
      x = g (UInt32.ofNat c₀.st.length, c₀.st.append ⟨k, v⟩) → Meets hash c L op x) :
    Meets hash c L op x := by
  rcases c₀.st.put_cases k v with ⟨hno, hp⟩ | ⟨hroom, haddr, hp⟩ | ⟨hroom, hbig, hne, hlen⟩
  · refine hdeny (if_neg fun hr => ?_) (hx _ hp)
    have := (h.room_iff k v).mpr hr
    omega
  · exact hput (if_pos ((h.room_iff k v).mp hroom)) hroom haddr (hx _ hp)
  · rw [hsize, hlength, ← hrec] at hroom
    rw [hlength, ← hrec] at hbig
    refine Or.inl ⟨⟨hbig, hroom⟩, fun e c' hc' => ?_⟩
    rcases hp : c₀.st.put k v with f | e' | p
    · cases (hx _ hp).symm.trans hc'
    · exact absurd hp (hne e')
    · obtain ⟨he, hst⟩ := hg p e c' ((hx _ hp).symm.trans hc')
      exact ⟨he, hst ▸ hlen p.1 p.2 hp⟩

end

/-- **`Set` follows the ledger.** -/
theorem set_spec (h : c.Refines hash L) (k v : Bytes) :
    Meets hash c L (.set k v) (c.set (hash k) k v) := by
  rw [set]
  by_cases hv : v.length < 8
  · rw [if_pos hv]
    exact .same (.refl _) h (if_pos hv) rfl rfl
  rw [if_neg hv]
  rcases HashMap.checkSpace_eq h.index.valid.toShaped with ⟨hfull, hcs⟩ | ⟨hfull, hm, hcs, hs⟩
  · rw [hcs]
    exact .same (.refl _) h (by simp only [Ledger.answer, if_neg hv, hfull, if_true]) rfl rfl
  have h₁ := h.spaced hs
  have hfree := hs.room h.index.valid
  have hans := L.answer_set hfull hv (k := k)
  rw [hcs, Call.ok_bind]
  dsimp only
  cases hk : L.dict k with
  | none =>
    obtain ⟨i, hi, hsearch, hf, hl⟩ := h₁.toDenotes.search_empty hk
    rw [hashReMap_eq hash k, hsearch, Call.ok_bind]
    dsimp only
    simp only [hk] at hans
    refine .put h₁ rfl rfl k v rfl { c with hm } (fun p => .ok (none,
        { hm := hm.fill i (hashWord hash k) p.1
          st := p.2
          checksum := c.checksum.sum (hash k ^^^ uint64 v) (unixTime v)
          path := c.path })) (fun p e c' hc => by cases hc; exact ⟨rfl, rfl⟩)
        (by rintro (f | e | p) hp <;> rw [hp] <;> rfl) (fun he hx => ?_)
        fun he hroom haddr hx => ?_
    · exact .same hs.grown h₁ (hans.trans he) rfl hx
    · have hL : L.apply hash (.set k v, none) = L.write hash k v := by simp only [Ledger.apply, hk]
      refine .of_grown hs.grown (hans.trans he) (Or.inr ⟨_, hx, ?_, rfl, ?_⟩) <;> rw [hL]
      · exact h₁.occupy (not_lt.mp hv) hk hi hf hl hfree hroom haddr
      · exact Or.inr ⟨⟨k, v⟩, rfl, rfl, by rw [if_pos hk]; exact ⟨rfl, rfl⟩⟩
  | some old =>
    obtain ⟨i, hi, hsearch, hi2, hr⟩ := h₁.toDenotes.search_found hk
    obtain ⟨s, hslice, -, -, -, hfirst, hafter⟩ := h₁.toDenotes.readValue hi hi2 hr
    rw [hashReMap_eq hash k, hsearch, Call.ok_bind]
    dsimp only at hslice hfirst hafter ⊢
    rw [hslice, Call.ok_bind, hfirst, Call.ok_bind, unixTime_take]
    simp only [hk] at hans
    by_cases hlt : unixTime old < unixTime v
    · rw [if_neg (not_le.mpr hlt)] at hans
      rw [if_neg (not_or.mpr ⟨not_lt.mpr hlt.le, hlt.ne⟩)]
      refine .put h₁ rfl rfl k v rfl { c with hm } (fun p => p.2.first8 s >>= fun o => .ok (none,
          { hm := hm.point i (hashWord hash k) p.1
            st := p.2
            checksum := (c.checksum.sub (hash k ^^^ uint64 o) (unixTime v)).sum
              (hash k ^^^ uint64 v) (unixTime v)
            path := c.path })) (fun p e c' hc => ?_)
          (by rintro (f | e | p) hp <;> rw [hp] <;> rfl) (fun he hx => ?_)
          fun he hroom haddr hx => ?_
      · obtain ⟨o, -, hc⟩ := Call.bind_eq_ok.mp hc
        cases hc
        exact ⟨rfl, rfl⟩
      · exact .same hs.grown h₁ (hans.trans he) rfl hx
      · have hL : L.apply hash (.set k v, none) = L.write hash k v := by
          simp only [Ledger.apply, hk, if_neg (not_le.mpr hlt)]
        dsimp only at hx
        rw [hafter, Call.ok_bind, uint64_take] at hx
        refine .of_grown hs.grown (hans.trans he) (Or.inr ⟨_, hx, ?_, rfl, ?_⟩) <;>
          rw [hL]
        · exact h₁.pointTo (not_lt.mp hv) hk hi hi2 hr hroom haddr
        · exact Or.inr ⟨⟨k, v⟩, rfl, rfl, by rw [hk]; exact ⟨rfl, rfl⟩⟩
    · rw [if_pos (not_lt.mp hlt)] at hans
      rw [if_pos ((lt_or_eq_of_le (not_lt.mp hlt)).imp id Eq.symm)]
      exact .same hs.grown h₁ hans (by simp only [Ledger.apply, hk, if_pos (not_lt.mp hlt)]) rfl

/-- **`CAS` follows the ledger.** -/
theorem cas_spec (h : c.Refines hash L) (k v : Bytes) :
    Meets hash c L (.cas k v) (c.cas (hash k) k v) := by
  rw [cas]
  by_cases hv : v.length < 24
  · rw [if_pos hv]
    exact .same (.refl _) h (if_pos hv) rfl rfl
  have hv8 : 8 ≤ (v.drop 16).length := by
    rw [List.length_drop]
    omega
  rw [if_neg hv]
  rcases HashMap.checkSpace_eq h.index.valid.toShaped with ⟨hfull, hcs⟩ | ⟨hfull, hm, hcs, hs⟩
  · rw [hcs]
    exact .same (.refl _) h (by simp only [Ledger.answer, if_neg hv, hfull, if_true]) rfl rfl
  have h₁ := h.spaced hs
  have hfree := hs.room h.index.valid
  have hans := L.answer_cas hfull hv (k := k)
  rw [hcs, Call.ok_bind]
  dsimp only
  cases hk : L.dict k with
  | none =>
    obtain ⟨i, hi, hsearch, hf, hl⟩ := h₁.toDenotes.search_empty hk
    rw [hashReMap_eq hash k, hsearch, Call.ok_bind]
    dsimp only
    rw [hk] at hans
    by_cases htest : unixTime v ≠ 0 ∧ uint64 (v.drop 8) ≠ fnv1a64 []
    · rw [if_pos htest]
      exact .same hs.grown h₁ (by rw [hans, Ledger.casTest, if_pos htest]) rfl rfl
    · rw [Ledger.casTest, if_neg htest] at hans
      rw [if_neg htest]
      refine .put h₁ rfl rfl k (v.drop 16) rfl { c with hm } (fun p => .ok (none,
          { hm := hm.fill i (hashWord hash k) p.1
            st := p.2
            checksum := c.checksum.sum (hash k ^^^ uint64 (v.drop 16)) (unixTime (v.drop 16))
            path := c.path })) (fun p e c' hc => by cases hc; exact ⟨rfl, rfl⟩)
          (by rintro (f | e | p) hp <;> rw [hp] <;> rfl) (fun he hx => ?_)
          fun he hroom haddr hx => ?_
      · refine .same hs.grown h₁ (hans.trans he) ?_ hx
        simp only [Ledger.apply, Ledger.retract, hk]
      · refine .of_grown hs.grown (hans.trans he) (Or.inr ⟨_, hx, ?_, rfl, ?_⟩)
        · exact h₁.occupy hv8 hk hi hf hl hfree hroom haddr
        · exact Or.inr ⟨⟨k, v.drop 16⟩, rfl, rfl, by rw [if_pos hk]; exact ⟨rfl, rfl⟩⟩
  | some old =>
    obtain ⟨i, hi, hsearch, hi2, hr⟩ := h₁.toDenotes.search_found hk
    obtain ⟨s, hslice, hlen, hold, hview, hfirst, -⟩ := h₁.toDenotes.readValue hi hi2 hr
    rw [hashReMap_eq hash k, hsearch, Call.ok_bind]
    dsimp only at hslice hfirst hview ⊢
    rw [hslice, Call.ok_bind, hfirst, Call.ok_bind, unixTime_take, uint64_take, hview,
      if_neg (show ¬ s.len < 8 by omega)]
    rw [hk] at hans
    by_cases htime : unixTime old ≠ unixTime v
    · rw [if_pos htime]
      exact .same hs.grown h₁ (by rw [hans, Ledger.casTest, if_pos htime]) rfl rfl
    rw [if_neg htime]
    by_cases hhash : uint64 (v.drop 8) ≠ fnv1a64 (old.drop 8)
    · rw [if_pos hhash]
      exact .same hs.grown h₁ (by rw [hans, Ledger.casTest, if_neg htime, if_pos hhash]) rfl rfl
    rw [if_neg hhash]
    rw [Ledger.casTest, if_neg htime, if_neg hhash] at hans
    have hret : L.retract hash k (unixTime (v.drop 16))
        = c.checksum.sub (hash k ^^^ uint64 old) (unixTime (v.drop 16)) := by
      simp only [Ledger.retract, hk, h.checksum_eq]
    refine .put h₁ rfl rfl k (v.drop 16) rfl
        { hm := hm
          st := c.st
          checksum := c.checksum.sub (hash k ^^^ uint64 old) (unixTime (v.drop 16))
          path := c.path } (fun p => .ok (none,
        { hm := hm.point i (hashWord hash k) p.1
          st := p.2
          checksum := (c.checksum.sub (hash k ^^^ uint64 old) (unixTime (v.drop 16))).sum
            (hash k ^^^ uint64 (v.drop 16)) (unixTime (v.drop 16))
          path := c.path })) (fun p e c' hc => by cases hc; exact ⟨rfl, rfl⟩)
        (by rintro (f | e | p) hp <;> rw [hp] <;> rfl) (fun he hx => ?_)
        fun he hroom haddr hx => ?_
    · refine .of_grown hs.grown (hans.trans he)
        (Or.inr ⟨_, hx, ?_, rfl, Or.inl ⟨rfl, rfl, rfl, rfl⟩⟩)
      exact ⟨⟨h₁.index, h₁.isLog⟩, h₁.size_eq, hret.symm, h₁.deleted_eq⟩
    · refine .of_grown hs.grown (hans.trans he) (Or.inr ⟨_, hx, ?_, rfl, ?_⟩)
      · exact h₁.pointTo hv8 hk hi hi2 hr hroom haddr
      · exact Or.inr ⟨⟨k, v.drop 16⟩, rfl, rfl, by rw [hk]; exact ⟨rfl, rfl⟩⟩

/-- **`Del` follows the ledger**, given a timestamp. -/
theorem del_spec (h : c.Refines hash L) (k v : Bytes) (hv : 8 ≤ v.length) :
    Meets hash c L (.del k v) (c.del (hash k) k v) := by
  rw [del, hashReMap_eq hash k]
  cases hk : L.dict k with
  | none =>
    obtain ⟨i, hi, hsearch, -⟩ := h.toDenotes.search_empty hk
    rw [hsearch]
    exact .same (.refl _) h (by simp only [Ledger.answer, hk]) (by simp only [Ledger.apply, hk]) rfl
  | some old =>
    obtain ⟨i, hi, hsearch, hi2, hr⟩ := h.toDenotes.search_found hk
    obtain ⟨s, hslice, hlen, hold, -, hfirst, -⟩ := h.toDenotes.readValue hi hi2 hr
    rw [hsearch, Call.ok_bind]
    dsimp only
    rw [hslice, Call.ok_bind, hfirst, Call.ok_bind, if_neg (not_lt.mpr hv), unixTime_take,
      uint64_take, hlen]
    by_cases hlt : unixTime v < unixTime old
    · rw [if_pos hlt]
      exact .same (.refl _) h (by simp only [Ledger.answer, hk, if_pos hlt])
        (by simp only [Ledger.apply, hk, if_pos hlt]) rfl
    rw [if_neg hlt]
    have hans : L.answer c.hm.full (.del k v) = L.putAnswer k [] := by
      simp only [Ledger.answer, hk, if_neg hlt]
    have hdel := h.markDeleted hi hi2 hr (unixTime v)
    have hL : ∀ e, L.apply hash (.del k v, e) = if e = none then
        (L.erase hash k old (unixTime v)).bury k else L.erase hash k old (unixTime v) := fun e => by
      simp only [Ledger.apply, hk, if_neg hlt]
    refine .put hdel rfl rfl k [] rfl _ (fun p => .ok (none,
        { hm := c.hm.setHash i deletedBucket
          st := p.2
          checksum := c.checksum.sub (hash k ^^^ uint64 old) (unixTime v)
          path := c.path })) (fun p e c' hc => by cases hc; exact ⟨rfl, rfl⟩)
        (by rintro (f | e | p) hp <;> dsimp only [markDeleted] <;> rw [hp] <;> rfl)
        (fun he hx => ?_)
        fun he hroom haddr hx => ?_
    · refine .of_grown (.refl _) (hans.trans he) (Or.inr ⟨_, hx, ?_, rfl, ?_⟩) <;>
        rw [hL, if_neg (Option.some_ne_none _)]
      · exact hdel
      · exact Or.inl ⟨rfl, rfl, rfl, rfl⟩
    · refine .of_grown (.refl _) (hans.trans he) (Or.inr ⟨_, hx, ?_, rfl, ?_⟩) <;>
        rw [hL, if_pos rfl]
      · exact hdel.bury (Function.update_self _ _ _) hroom haddr
      · exact Or.inr ⟨⟨k, []⟩, rfl, rfl, by rw [hk]; exact ⟨rfl, rfl⟩⟩

/-! ## Requests and runs -/

/-- The request `op`, with the hash of its key. -/
def apply (hash : Bytes → UInt64) (c : PMap) : Op → Call (Option Error × PMap)
  | .set k v => c.set (hash k) k v
  | .cas k v => c.cas (hash k) k v
  | .del k v => c.del (hash k) k v

/-- **Every request follows the ledger.** -/
theorem apply_spec (h : c.Refines hash L) {op : Op} (hop : op.Timed) :
    Meets hash c L op (c.apply hash op) := by
  cases op with
  | set k v => exact set_spec h k v
  | cas k v => exact cas_spec h k v
  | del k v => exact del_spec h k v hop

/-- A `Del` of an absent key changes nothing, with a timestamp or without. -/
theorem Refines.del_absent (h : c.Refines hash L) {k : Bytes} (hk : L.dict k = none) (v : Bytes) :
    c.apply hash (.del k v) = .ok (none, c) := by
  obtain ⟨i, -, hsearch, -⟩ := h.toDenotes.search_empty hk
  rw [apply, del, hashReMap_eq hash k, hsearch]
  rfl

/-- A `Del` of a present key without a timestamp is a slice out of range. -/
theorem Refines.del_short (h : c.Refines hash L) {k old v : Bytes} (hk : L.dict k = some old)
    (hv : v.length < 8) : c.apply hash (.del k v) = .error .bounds := by
  obtain ⟨i, hi, hsearch, hi2, hr⟩ := h.toDenotes.search_found hk
  obtain ⟨s, hslice, -, -, -, hfirst, -⟩ := h.toDenotes.readValue hi hi2 hr
  rw [apply, del, hashReMap_eq hash k, hsearch,
    Call.ok_bind]
  dsimp only
  rw [hslice, Call.ok_bind, hfirst, Call.ok_bind, if_pos hv]

/-- A request, with its answer, that leaves the store within the bytes a 32-bit word addresses. -/
def Step (hash : Bytes → UInt64) (c : PMap) (ev : Op × Option Error) (c' : PMap) : Prop :=
  ev.1.Timed ∧ c.apply hash ev.1 = .ok (ev.2, c') ∧ c'.st.length ≤ 2 ^ 32

/-- **One step**: the answer is the ledger's, and so is what it leaves. -/
theorem Step.refines {ev : Op × Option Error} {c' : PMap} (hs : Step hash c ev c')
    (h : c.Refines hash L) : ev.2 = L.answer c.hm.full ev.1 ∧ c'.Refines hash (L.apply hash ev)
      ∧ c'.path = c.path ∧ Moves (fun n => Grown n c.hm) c.st L c' (L.apply hash ev) := by
  obtain ⟨op, e⟩ := ev
  obtain ⟨hop, hx, hlen⟩ := hs
  rcases apply_spec h hop with ⟨-, hover⟩ | ⟨c₁, hx₁, hrest⟩
  · exact absurd hlen (not_le.mpr (hover e c' hx).2)
  · obtain ⟨he, rfl⟩ := Prod.mk.inj (Except.ok.inj (hx.symm.trans hx₁))
    dsimp only at he
    rw [← he] at hrest
    exact ⟨he, hrest⟩

theorem Step.effect {ev : Op × Option Error} {c' : PMap} (hs : Step hash c ev c')
    (h : c.Refines hash L) : L.Effect hash ev.1 ev.2 (L.apply hash ev) := by
  obtain ⟨op, e⟩ := ev
  obtain rfl : e = L.answer c.hm.full op := (hs.refines h).1
  exact L.effect hash _ op

/-- **Every run follows the ledger.** -/
theorem refines_of_run {evs : List (Op × Option Error)} {c' : PMap}
    (hrun : Run (Step hash) c evs c') (h : c.Refines hash L) :
    c'.Refines hash (evs.foldl (Ledger.apply hash) L) :=
  hrun.simulates (fun h hs => (hs.refines h).2.1) h

/-- **Every request is answered**, in a store that a 32-bit word addresses. -/
theorem exists_step (h : c.Refines hash L) (hsize : c.st.size ≤ 2 ^ 32) {op : Op} (hop : op.Timed) :
    ∃ e c', Step hash c (op, e) c' := by
  rcases apply_spec h hop with ⟨⟨hbig, hroom⟩, -⟩ | ⟨c', hx, hr, -⟩
  · omega
  · exact ⟨_, c', hop, hx, hr.isLog.addressable⟩

end PMap

end Treeless
