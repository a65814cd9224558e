import Treeless.PMap.Runs
import Treeless.PMap.Scan

/-!
# PMap/Edge — `Open` at the end of the file

    │ record │ … │ record │ ?  ?  ?  │
                          ▴          ▴
                        length     size

A request puts its record or leaves the bytes alone (`takes_apply`), so a file is a log with zeros
behind it.  `put` takes a record whenever one byte stays free behind it, and `Open` reads four
there.
-/

namespace Treeless

namespace Store

variable {st st' : Store} {log : List Record} {r : Record}

/-- What a request does to the bytes of a store: nothing, or it puts its record. -/
def Takes (r : Record) (st st' : Store) : Prop :=
  ∃ st₁ : Store, st₁.file = st.file ∧ st₁.length = st.length ∧ st₁.size = st.size
    ∧ (st' = st₁ ∨ ∃ i, st₁.Accepts (r, i) st')

theorem Takes.same (r : Record) (st : Store) : Takes r st st := ⟨st, rfl, rfl, rfl, Or.inl rfl⟩

theorem Takes.counted (r : Record) (st : Store) (n : ℕ) : Takes r st { st with deleted := n } :=
  ⟨{ st with deleted := n }, rfl, rfl, rfl, Or.inl rfl⟩

theorem Takes.length_le (h : Takes r st st') : st.length ≤ st'.length := by
  obtain ⟨st₁, -, hlen, -, rfl | ⟨i, hput⟩⟩ := h
  · exact hlen.ge
  · rw [length_of_put hput, hlen]
    exact Nat.le_add_right ..

theorem Wrote.congr (h : st.Wrote log) (hfile : st'.file = st.file) (hlen : st'.length = st.length)
    (hsize : st'.size = st.size) : st'.Wrote log where
  length_eq := hlen.trans h.length_eq
  holds := hfile ▸ h.holds
  fits := by rw [hlen, hsize]; exact h.fits
  short := h.short
  zero := fun i hi => by rw [hfile]; exact h.zero i (hlen ▸ hi)

/-- **A request keeps the file a log**, in the bytes a 32-bit word addresses. -/
theorem Wrote.takes (h : st.Wrote log) (ht : Takes r st st') (haddr : st'.length ≤ 2 ^ 32) :
    st'.Wrote log ∨ st'.Wrote (log ++ [r]) := by
  obtain ⟨st₁, hfile, hlen, hsize, rfl | ⟨i, hput⟩⟩ := ht
  · exact Or.inl (h.congr hfile hlen hsize)
  · have hshort : r.key.length + r.val.length < 2 ^ 32 := by
      have hsz : r.size = 12 + r.key.length + r.val.length := rfl
      have := length_of_put hput
      change st'.length = st₁.length + r.size at this
      omega
    obtain ⟨hroom, -, rfl⟩ := hput.append hshort
    exact Or.inr ((h.congr hfile hlen hsize).append hroom.le hshort)

end Store

namespace PMap

variable {c c' : PMap} {path : String} {size : ℕ} {evs : List (Op × Option Error)}

/-- What a call returns next to its answer has the store of `c`, or the one with `r` put. -/
abbrev StoreTakes (c : PMap) (r : Record) (x : Call (Option Error × PMap)) : Prop :=
  x.Returns fun p => Store.Takes r c.st p.2.st

/-- The end of every request that writes: a `put`, and what is done with its answer. -/
theorem takes_put (c : PMap) {r : Record} {st : Store}
    {f : Except Error (UInt32 × Store) → Call (Option Error × PMap)} (hfile : st.file = c.st.file)
    (hlen : st.length = c.st.length) (hsize : st.size = c.st.size)
    (herr : ∀ e, c.StoreTakes r (f (.error e)))
    (hok : ∀ i st', Store.Takes r c.st st' → c.StoreTakes r (f (.ok (i, st')))) :
    c.StoreTakes r (st.put r.key r.val >>= f) :=
  Call.Returns.seq (P := fun a => st.put r.key r.val = .ok a) (fun _ h => h) fun a ha => by
    cases a with
    | error e => exact herr e
    | ok p => exact hok p.1 p.2 ⟨st, hfile, hlen, hsize, Or.inr ⟨p.1, ha⟩⟩

theorem takes_set (c : PMap) (h64 : UInt64) (key value : Bytes) :
    c.StoreTakes ⟨key, value⟩ (c.set h64 key value) := by
  unfold set
  split
  · exact .ok (.same ..)
  refine .bind fun space => ?_
  split
  · exact .ok (.same ..)
  refine .bind fun slot => ?_
  split
  · exact c.takes_put rfl rfl rfl (fun _ => .ok (.same ..)) fun _ _ h => .ok h
  · refine .bind fun v => .bind fun old => ?_
    dsimp only
    split
    · exact .ok (.same ..)
    · exact c.takes_put rfl rfl rfl (fun _ => .ok (.same ..)) fun _ _ h => .bind fun _ => .ok h

theorem takes_cas (c : PMap) (h64 : UInt64) (key value : Bytes) :
    c.StoreTakes ⟨key, value.drop 16⟩ (c.cas h64 key value) := by
  unfold cas
  split
  · exact .ok (.same ..)
  refine .bind fun space => ?_
  split
  · exact .ok (.same ..)
  refine .bind fun slot => ?_
  split
  · split
    · exact .ok (.same ..)
    · exact c.takes_put rfl rfl rfl (fun _ => .ok (.same ..)) fun _ _ h => .ok h
  · refine .bind fun v => .bind fun old => ?_
    split
    · exact .ok (.same ..)
    split
    · exact .fault _
    split
    · exact .ok (.same ..)
    · exact c.takes_put rfl rfl rfl (fun _ => .ok (.same ..)) fun _ _ h => .ok h

theorem takes_del (c : PMap) (h64 : UInt64) (key value : Bytes) :
    c.StoreTakes ⟨key, []⟩ (c.del h64 key value) := by
  unfold del
  refine .bind fun slot => ?_
  split
  · exact .ok (.same ..)
  refine .bind fun v => .bind fun old => ?_
  split
  · exact .fault _
  dsimp only
  split
  · exact .ok (.same ..)
  · exact c.takes_put rfl rfl rfl (fun _ => .ok (.counted ..)) fun _ _ h => .ok h

/-- **A request puts its record or leaves the bytes alone**, whatever state it finds. -/
theorem takes_apply (hash : Bytes → UInt64) (c : PMap) (op : Op) :
    c.StoreTakes op.record (c.apply hash op) := by
  cases op with
  | set k v => exact c.takes_set _ k v
  | cas k v => exact c.takes_cas _ k v
  | del k v => exact c.takes_del _ k v

/-- **After every run on non-empty keys** the file is a log of such keys, as far as a 32-bit word
addresses it. -/
theorem wrote_run {hash : Bytes → UInt64} (hrun : Run (Returned hash) (new path size) evs c)
    (hkeys : ∀ ev ∈ evs, ev.1.key ≠ []) (haddr : c.st.length ≤ 2 ^ 32) :
    ∃ log, c.st.Wrote log ∧ ∀ r ∈ log, r.key ≠ [] := by
  refine hrun.invariant_on
    (I := fun c => c.st.length ≤ 2 ^ 32 → ∃ log, c.st.Wrote log ∧ ∀ r ∈ log, r.key ≠ [])
    ?_ hkeys (fun _ => ⟨[], Store.wrote_newStore size, fun _ h => absurd h List.not_mem_nil⟩) haddr
  intro c ev c' hkey ih hs haddr
  have htakes := takes_apply hash c ev.1 _ hs
  obtain ⟨log, hw, hlog⟩ := ih (htakes.length_le.trans haddr)
  rcases hw.takes htakes haddr with hw' | hw'
  · exact ⟨log, hw', hlog⟩
  · refine ⟨_, hw', fun r hr => ?_⟩
    rcases List.mem_append.mp hr with hr | hr
    · exact hlog r hr
    · obtain ⟨op, e⟩ := ev
      rw [List.mem_singleton.mp hr]
      cases op <;> exact hkey

/-- **`Open` of the file a run left**: it returns what was closed if four bytes are left behind the
log, and reads beyond the file otherwise. -/
theorem open_of_run (hrun : Run (Returned fnv1a64) (new path size) evs c)
    (hkeys : ∀ ev ∈ evs, ev.1.key ≠ []) (haddr : c.st.length ≤ 2 ^ 32) (path' : String) :
    (c.st.length + 4 ≤ c.st.size
        ∧ ∃ c', PMap.open path' c.close = .ok c' ∧ c'.st.length = c.st.length)
      ∨ (c.st.size < c.st.length + 4 ∧ PMap.open path' c.close = .error .bounds) := by
  obtain ⟨log, hw, hlog⟩ := wrote_run hrun hkeys haddr
  have hstart : ∀ off r, recordAt log off = some r → off < 2 ^ 32 := fun off r hr => by
    have hle := add_size_le_of_recordAt hr
    have h12 := r.twelve_le_size
    have hlen := hw.length_eq
    omega
  rcases open_of_wrote path' hw hlog hstart with ⟨hroom, c', -, hopen, hlen, -⟩ | h
  · exact Or.inl ⟨hroom, c', hopen, hlen⟩
  · exact Or.inr h

/-- **When `Open` stays inside the file.**  After every run on non-empty keys in the bytes a 32-bit
word addresses, exactly if it left four bytes behind the log. -/
theorem open_in_bounds_iff (hrun : Run (Returned fnv1a64) (new path size) evs c)
    (hkeys : ∀ ev ∈ evs, ev.1.key ≠ []) (haddr : c.st.length ≤ 2 ^ 32) (path' : String) :
    (PMap.open path' c.close ≠ .error .bounds ↔ c.st.length + 4 ≤ c.st.size)
      ∧ (c.st.length + 4 ≤ c.st.size → ∃ c', PMap.open path' c.close = .ok c') := by
  rcases open_of_run hrun hkeys haddr path' with ⟨hroom, c', hopen, -⟩ | ⟨hend, hopen⟩
  · refine ⟨⟨fun _ => hroom, fun _ h => ?_⟩, fun _ => ⟨c', hopen⟩⟩
    rw [hopen] at h
    cases h
  · exact ⟨⟨fun h => absurd hopen h, fun h => absurd h (not_le.mpr hend)⟩,
      fun h => absurd h (not_le.mpr hend)⟩

/-- A tombstone with four bytes behind it: the last of the eight bytes `restorePair` takes is the
last of the file. -/
theorem open_in_bounds_tombstone : ∃ c c', Run (Returned fnv1a64) (new "" 39)
      [(.set [1] (stamped 5 [7]), none), (.del [1] (stamped 6 []), none)] c
    ∧ c.st.length + 4 = c.st.size ∧ PMap.open "" c.close = .ok c' := by
  obtain ⟨c, hrun, hobs⟩ := exists_run fnv1a64 (new "" 39)
    [(.set [1] (stamped 5 [7]), none), (.del [1] (stamped 6 []), none)]
    (fun c => .ok (c.st.length, c.st.size)) (35, 39) (by decide) (by decide +kernel)
  obtain ⟨hlen, hsize⟩ := Prod.mk.inj (Except.ok.inj hobs)
  have hret := hrun.mono fun h => h.2
  obtain ⟨c', hopen⟩ := (open_in_bounds_iff hret (by decide) (by omega) "").2 (by omega)
  exact ⟨c, c', hret, by omega, hopen⟩

/-- **Two full stores.**  The word behind the last record has one byte in the file; the tombstone in
front of it none of the eight bytes `restorePair` takes. -/
theorem open_leaves_file : ∃ c₁ c₂,
    Run (Returned fnv1a64) (new "" 23) [(.set [1] (stamped 5 [7]), none)] c₁
    ∧ PMap.open "" c₁.close = .error .bounds
    ∧ Run (Returned fnv1a64) (new "" 36)
      [(.set [1] (stamped 5 [7]), none), (.del [1] (stamped 6 []), none)] c₂
    ∧ PMap.open "" c₂.close = .error .bounds := by
  obtain ⟨c₁, hrun₁, hobs₁⟩ := exists_run fnv1a64 (new "" 23) [(.set [1] (stamped 5 [7]), none)]
    (fun c => .ok (c.st.length, c.st.size)) (22, 23) (by decide) (by decide +kernel)
  obtain ⟨c₂, hrun₂, hobs₂⟩ := exists_run fnv1a64 (new "" 36)
    [(.set [1] (stamped 5 [7]), none), (.del [1] (stamped 6 []), none)]
    (fun c => .ok (c.st.length, c.st.size)) (35, 36) (by decide) (by decide +kernel)
  obtain ⟨hlen₁, hsize₁⟩ := Prod.mk.inj (Except.ok.inj hobs₁)
  obtain ⟨hlen₂, hsize₂⟩ := Prod.mk.inj (Except.ok.inj hobs₂)
  have hret₁ := hrun₁.mono fun h => h.2
  have hret₂ := hrun₂.mono fun h => h.2
  refine ⟨c₁, c₂, hret₁, ?_, hret₂, ?_⟩
  · rcases open_of_run hret₁ (by decide) (by omega) "" with ⟨hroom, -⟩ | ⟨-, hopen⟩
    · omega
    · exact hopen
  · rcases open_of_run hret₂ (by decide) (by omega) "" with ⟨hroom, -⟩ | ⟨-, hopen⟩
    · omega
    · exact hopen

end PMap

end Treeless
