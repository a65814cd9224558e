import Treeless.PMap.Runs
import Treeless.PMap.Scan

/-!
# PMap/Reachable — what every `PMap` keeps, across requests and reopenings

    New ──Set, CAS, Del──▸ c ──Close, Open──▸ c' ──Set, CAS, Del──▸ …

`Open` does not always find again what was closed: the scan may end early, resurrect what stood
behind, or run into the limit of the bucket array.  But whatever it returns, its buckets file a
dictionary over the records the scan went through (`Filing`), and that is all a request needs: each
one moves the records and the dictionary as it says (`Filing.apply`).
-/

namespace Treeless

/-- **A `put`** in a store that a 32-bit word addresses is denied, or appends its record. -/
theorem Store.Lists.put {st : Store} {log : List Record} (h : st.Lists log)
    (hsize : st.size ≤ 2 ^ 32) (k v : Bytes) :
    st.put k v = .ok (.error .storeLimit)
      ∨ (st.put k v = .ok (.ok (UInt32.ofNat (logSize log), st.append ⟨k, v⟩))
        ∧ (st.append ⟨k, v⟩).Lists (log ++ [⟨k, v⟩]) ∧ logSize log < 2 ^ 32) := by
  rcases st.put_cases k v with ⟨-, hput⟩ | ⟨hroom, haddr, hput⟩ | ⟨hroom, haddr, -⟩
  · exact Or.inl hput
  · have h12 := (Record.mk k v).twelve_le_size
    have hlen := h.length_eq
    exact Or.inr ⟨hlen ▸ hput, h.append hroom.le haddr, by omega⟩
  · omega

namespace PMap

variable {c c' : PMap} {log log' : List Record} {m m' : Dict} {k v : Bytes}

/-- `c`, in a store that a 32-bit word addresses, files the dictionary `m` over the records
`log`. -/
structure Filing (c : PMap) (log : List Record) (m : Dict) : Prop where
  files : c.hm.Files fnv1a64 log m
  lists : c.st.Lists log
  size_le : c.st.size ≤ 2 ^ 32

namespace Filing

theorem ordered (h : c.Filing log m) : c.Ordered fnv1a64 log m := ⟨h.files, h.lists.shows⟩

theorem spaced (h : c.Filing log m) {hm : HashMap} (hs : HashMap.Spaced c.hm hm) :
    ({ c with hm } : PMap).Filing log m := ⟨h.files.spaced hs, h.lists, h.size_le⟩

theorem new (path : String) {size : ℕ} (hsize : size ≤ 2 ^ 32) :
    (PMap.new path size).Filing [] fun _ => none :=
  ⟨.new .., (Store.isLog_newStore size).lists, hsize⟩

end Filing

/-! ## Requests -/

/-- What a request can do to the records and the dictionary. -/
inductive Moved (log : List Record) (m : Dict) : Op → Option Error → List Record → Dict → Prop
  | same (op : Op) (e : Option Error) : Moved log m op e log m
  | set (k v : Bytes) :
      Moved log m (.set k v) none (log ++ [⟨k, v⟩]) (Function.update m k (some v))
  | cas (k v : Bytes) :
      Moved log m (.cas k v) none (log ++ [⟨k, v.drop 16⟩])
        (Function.update m k (some (v.drop 16)))
  | bury (k v : Bytes) :
      Moved log m (.del k v) none (log ++ [⟨k, []⟩]) (Function.update m k none)
  | erase (k v : Bytes) :
      Moved log m (.del k v) (some .storeLimit) log (Function.update m k none)

/-- The tests of a `CAS` pass, on the value stored. -/
def Passes : Option Bytes → Bytes → Prop
  | none, v => unixTime v = 0 ∨ uint64 (v.drop 8) = fnv1a64 []
  | some old, v => 8 ≤ old.length ∧ unixTime old = unixTime v
      ∧ uint64 (v.drop 8) = fnv1a64 (old.drop 8)

/-- How a `CAS` of a long enough value ends. -/
inductive CasEnds (c : PMap) (log : List Record) (m : Dict) (k v : Bytes) :
    Option Error → PMap → Prop
  | full : CasEnds c log m k v (some .hashMapLimit) c
  | refused {e : Error} {hm : HashMap} (hs : HashMap.Spaced c.hm hm) (htest : ¬ Passes (m k) v)
      (hlimit : e ≠ .hashMapLimit) (hroom : e ≠ .storeLimit) :
      CasEnds c log m k v (some e) { c with hm }
  | denied {c' : PMap} (htest : Passes (m k) v) (h' : c'.Filing log m) :
      CasEnds c log m k v (some .storeLimit) c'
  | done {c' : PMap} (htest : Passes (m k) v)
      (h' : c'.Filing (log ++ [⟨k, v.drop 16⟩]) (Function.update m k (some (v.drop 16)))) :
      CasEnds c log m k v none c'

namespace Filing

/-- **A `Set`** keeps the buckets in order. -/
theorem set (h : c.Filing log m) (k v : Bytes) : (c.set (fnv1a64 k) k v).Returns fun p =>
    ∃ log' m', p.2.Filing log' m' ∧ Moved log m (.set k v) p.1 log' m' := by
  rw [PMap.set]
  split
  · exact .ok ⟨log, m, h, .same ..⟩
  rcases HashMap.checkSpace_eq h.files.valid.toShaped with ⟨-, hcs⟩ | ⟨-, hm, hcs, hs⟩
  · rw [hcs, Call.ok_bind]
    exact .ok ⟨log, m, h, .same ..⟩
  rw [hcs, Call.ok_bind]
  dsimp only
  have h' := h.spaced hs
  have hput := h'.lists.put h'.size_le k v
  cases hk : m k with
  | none =>
    obtain ⟨i, hi, hsearch, hf, hl⟩ := h'.ordered.search_empty hk
    rw [hashReMap_eq, hsearch, Call.ok_bind]
    dsimp only
    rcases hput with hput | ⟨hput, hlists, haddr⟩
    · rw [hput, Call.ok_bind]
      exact .ok ⟨log, m, h', .same ..⟩
    · rw [hput, Call.ok_bind]
      have hfiled := h'.files.filed_fill hk hi hf hl (hs.room h.files.valid) haddr
      exact .ok ⟨_, _, ⟨h'.files.file hfiled v, hlists, h.size_le⟩, .set ..⟩
  | some old =>
    obtain ⟨i, hi, hsearch, hi2, ht⟩ := h'.ordered.search_found hk
    rw [hashReMap_eq, hsearch, Call.ok_bind]
    dsimp only
    refine .bind fun s => .bind fun old8 => ?_
    split
    · exact .ok ⟨log, m, h', .same ..⟩
    rcases hput with hput | ⟨hput, hlists, haddr⟩
    · rw [hput, Call.ok_bind]
      exact .ok ⟨log, m, h', .same ..⟩
    · rw [hput, Call.ok_bind]
      have hfiled := h'.files.filed_point hi hi2 ht haddr
      exact .bind fun _ => .ok ⟨_, _, ⟨h'.files.file hfiled v, hlists, h.size_le⟩, .set ..⟩

/-- **A `CAS`** keeps the buckets in order, and writes exactly if its tests pass.  It returns unless
the value stored is too short for a timestamp. -/
theorem cas (h : c.Filing log m) (k : Bytes) (hv : 24 ≤ v.length) :
    (c.cas (fnv1a64 k) k v).Ends (fun _ => ∃ old, m k = some old ∧ old.length < 8)
      fun p => CasEnds c log m k v p.1 p.2 := by
  rw [PMap.cas, if_neg (not_lt.mpr hv)]
  rcases HashMap.checkSpace_eq h.files.valid.toShaped with ⟨-, hcs⟩ | ⟨-, hm, hcs, hs⟩
  · rw [hcs, Call.ok_bind]
    exact CasEnds.full
  rw [hcs, Call.ok_bind]
  dsimp only
  have h' := h.spaced hs
  have hput := h'.lists.put h'.size_le k (v.drop 16)
  cases hk : m k with
  | none =>
    obtain ⟨i, hi, hsearch, hf, hl⟩ := h'.ordered.search_empty hk
    rw [hashReMap_eq, hsearch, Call.ok_bind]
    dsimp only
    split
    · next hno =>
      exact CasEnds.refused hs (by rw [hk]; exact fun hp => hp.elim hno.1 hno.2) (by decide)
        (by decide)
    next hyes =>
    have htest : Passes (m k) v := by
      rw [hk]
      exact (not_and_or.mp hyes).imp not_not.mp not_not.mp
    rcases hput with hput | ⟨hput, hlists, haddr⟩
    · rw [hput, Call.ok_bind]
      exact CasEnds.denied htest h'
    · rw [hput, Call.ok_bind]
      exact CasEnds.done htest ⟨h'.files.file
        (h'.files.filed_fill hk hi hf hl (hs.room h.files.valid) haddr) _, hlists, h.size_le⟩
  | some old =>
    obtain ⟨i, hi, hsearch, hi2, ht⟩ := h'.ordered.search_found hk
    have hshows := h'.ordered.shows ht
    have hview : c.st.view ⟨(hm.getStoreIndex i).toNat + 8 + k.length, old.length⟩ = old :=
      hshows.valBytes
    rw [hashReMap_eq, hsearch, Call.ok_bind]
    dsimp only
    rw [hshows.valSlice_eq, Call.ok_bind]
    -- of a stored value with a timestamp, these are its first eight bytes
    have hfirst : (c.st.first8 ⟨(hm.getStoreIndex i).toNat + 8 + k.length, old.length⟩).Ends
        (fun _ => ∃ old', some old = some old' ∧ old'.length < 8)
        fun old8 => 8 ≤ old.length → unixTime old8 = unixTime old := by
      by_cases hlen : 8 ≤ old.length
      · rw [show c.st.first8 _ = _ from hshows.first8_eq hlen]
        exact fun _ => unixTime_take old
      · cases c.st.first8 ⟨(hm.getStoreIndex i).toNat + 8 + k.length, old.length⟩ with
        | ok old8 => exact fun h8 => absurd h8 hlen
        | error f => exact ⟨old, rfl, not_le.mp hlen⟩
    refine hfirst.seq fun old8 htime => ?_
    split
    · next hne =>
      exact CasEnds.refused hs (by rw [hk]; exact fun hp => hne ((htime hp.1).trans hp.2.1))
        (by decide) (by decide)
    next heq =>
    split
    · next hlen => exact ⟨old, rfl, hlen⟩
    next hlen =>
    rw [hview]
    split
    · next hne =>
      exact CasEnds.refused hs (by rw [hk]; exact fun hp => hne hp.2.2) (by decide) (by decide)
    next hhash =>
    have htest : Passes (m k) v := by
      rw [hk]
      exact ⟨not_lt.mp hlen, (htime (not_lt.mp hlen)).symm.trans (not_not.mp heq), not_not.mp hhash⟩
    rcases hput with hput | ⟨hput, hlists, haddr⟩
    · rw [hput, Call.ok_bind]
      exact CasEnds.denied htest ⟨h'.files, h'.lists, h'.size_le⟩
    · rw [hput, Call.ok_bind]
      exact CasEnds.done htest ⟨h'.files.file (h'.files.filed_point hi hi2 ht haddr) _, hlists,
        h.size_le⟩

/-- **A `Del`** keeps the buckets in order. -/
theorem del (h : c.Filing log m) (k v : Bytes) : (c.del (fnv1a64 k) k v).Returns fun p =>
    ∃ log' m', p.2.Filing log' m' ∧ Moved log m (.del k v) p.1 log' m' := by
  rw [PMap.del]
  cases hk : m k with
  | none =>
    obtain ⟨i, -, hsearch, -⟩ := h.ordered.search_empty hk
    rw [hashReMap_eq, hsearch, Call.ok_bind]
    exact .ok ⟨log, m, h, .same ..⟩
  | some old =>
    obtain ⟨i, hi, hsearch, hi2, ht⟩ := h.ordered.search_found hk
    rw [hashReMap_eq, hsearch, Call.ok_bind]
    dsimp only
    refine .bind fun s => .bind fun old8 => ?_
    split
    · exact .fault _
    split
    · exact .ok ⟨log, m, h, .same ..⟩
    have hfiles := h.files.setDeleted hi hi2 ht
    have hlists : ({ c.st with deleted := c.st.deleted + (12 + k.length + s.len) } : Store).Lists
        log := h.lists.congr rfl rfl rfl
    rcases hlists.put h.size_le k [] with hput | ⟨hput, hlists', -⟩
    · dsimp only [markDeleted]
      rw [hput, Call.ok_bind]
      exact .ok ⟨log, _, ⟨hfiles, hlists, h.size_le⟩, .erase ..⟩
    · dsimp only [markDeleted]
      rw [hput, Call.ok_bind]
      exact .ok ⟨_, _, ⟨hfiles.append _, hlists', h.size_le⟩, .bury ..⟩

/-- **Every request that returns** keeps the buckets in order. -/
theorem apply (h : c.Filing log m) {ev : Op × Option Error} (hs : Returned fnv1a64 c ev c') :
    ∃ log' m', c'.Filing log' m' ∧ Moved log m ev.1 ev.2 log' m' := by
  obtain ⟨op, e⟩ := ev
  cases op with
  | set k v => exact h.set k v _ hs
  | del k v => exact h.del k v _ hs
  | cas k v =>
    rw [Returned, PMap.apply] at hs
    by_cases hv : v.length < 24
    · rw [PMap.cas, if_pos hv] at hs
      cases hs
      exact ⟨log, m, h, .same ..⟩
    · cases (h.cas k (not_lt.mp hv)).returns _ hs with
      | full => exact ⟨log, m, h, .same ..⟩
      | refused hsp => exact ⟨log, m, h.spaced hsp, .same ..⟩
      | denied _ h' => exact ⟨log, m, h', .same ..⟩
      | done _ h' => exact ⟨_, _, h', .cas ..⟩

end Filing

/-! ## Reopenings -/

/-- What `Open` returns, of whatever file. -/
theorem filing_of_open {path : String} {f : File} (hsize : f.size ≤ 2 ^ 32)
    (hx : PMap.open path f = .ok c') : ∃ log m, c'.Filing log m ∧ c'.st.size = f.size := by
  obtain ⟨log, h, hroom⟩ :=
    (scanned_start path ⟨0, 0, f.size, f.bytes⟩).restoreLoop hsize hx
  obtain ⟨m, ho⟩ := h.ordered
  have hsz : c'.st.size = f.size := h.size_eq
  have hlen := h.length_eq
  have hroom : logSize log + 4 ≤ f.size := hroom
  exact ⟨log, m, ⟨ho.files, ⟨hlen, by omega, by omega, ho.readable⟩, hsz ▸ hsize⟩, hsz⟩

/-- A `PMap` of `size` bytes that requests and reopenings have led to. -/
inductive Reachable (size : ℕ) : PMap → Prop
  | new (path : String) : Reachable size (new path size)
  | request {c c' : PMap} {ev : Op × Option Error} (hc : Reachable size c)
      (hs : Returned fnv1a64 c ev c') : Reachable size c'
  | reopen {c c' : PMap} {path : String} (hc : Reachable size c)
      (hx : PMap.open path c.close = .ok c') : Reachable size c'

/-- **Every reachable `PMap`** files a dictionary over the records of its store. -/
theorem Reachable.filing {size : ℕ} (hsize : size ≤ 2 ^ 32) (hc : Reachable size c) :
    ∃ log m, c.Filing log m := by
  induction hc with
  | new path => exact ⟨_, _, .new path hsize⟩
  | request _ hs ih =>
    obtain ⟨log, m, h⟩ := ih
    obtain ⟨log', m', h', -⟩ := h.apply hs
    exact ⟨log', m', h'⟩
  | reopen _ hx ih =>
    obtain ⟨log, m, h⟩ := ih
    obtain ⟨log', m', h', -⟩ := filing_of_open h.size_le hx
    exact ⟨log', m', h'⟩

end PMap

end Treeless
