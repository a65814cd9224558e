import Treeless.PMap.Runs

/-!
# PMap/Timestamps — the timestamp of a live key

A `Set` replaces a pair only by a newer one.  A `CAS` names the timestamp of the pair it replaces
and brings a new one, and nothing compares the two: the timestamp of a live key goes back exactly
when a `CAS` brings one before the one it names, and a replica takes over what a `CAS` wrote, by a
`Set`, exactly if it is after.
-/

namespace Treeless

namespace Ledger

variable {hash : Bytes → UInt64} {L : Ledger} {k v : Bytes}

/-- The event is a `CAS` of the key that was accepted, with a timestamp before the one it names. -/
def Backward (k : Bytes) (ev : Op × Option Error) : Prop :=
  ∃ w, ev = (.cas k w, none) ∧ unixTime (w.drop 16) < unixTime w

/-- An accepted `CAS` of a live key names its timestamp. -/
theorem unixTime_of_answer_cas {full : Bool} {w : Bytes} (hk : L.dict k = some v)
    (h : L.answer full (.cas k w) = none) : unixTime v = unixTime w := by
  rw [answer] at h
  split at h
  · cases h
  split at h
  · cases h
  cases htest : casTest (L.dict k) w with
  | some e =>
    rw [htest] at h
    cases h
  | none =>
    rw [hk] at htest
    exact unixTime_of_casTest htest

/-- **One request** that does not delete the key: it is still live, and its timestamp goes back
exactly if the request is backward. -/
theorem stamp_apply (full : Bool) {op : Op} (hk : L.dict k = some v) (hdel : ∀ w, op ≠ .del k w) :
    ∃ v', (L.apply hash (op, L.answer full op)).dict k = some v'
      ∧ (unixTime v ≤ unixTime v' ↔ ¬ Backward k (op, L.answer full op)) := by
  rw [dict_apply]
  by_cases hkey : k = op.key
  swap
  · refine ⟨v, (Dict.step_of_ne _ _ hkey).trans hk, iff_of_true le_rfl ?_⟩
    rintro ⟨w, h, -⟩
    rw [(Prod.mk.inj h).1] at hkey
    exact hkey rfl
  cases op with
  | set k' w =>
    obtain rfl : k = k' := hkey
    have hcas : ∀ e, ¬ Backward k (.set k w, e) := by
      rintro e ⟨w', h, -⟩
      cases (Prod.mk.inj h).1
    cases L.answer full (.set k w) with
    | some e => exact ⟨v, hk, iff_of_true le_rfl (hcas _)⟩
    | none =>
      simp only [Dict.step]
      rw [hk]
      dsimp only
      split
      · next hlt => exact ⟨w, Function.update_self _ _ _, iff_of_true hlt.le (hcas _)⟩
      · exact ⟨v, hk, iff_of_true le_rfl (hcas _)⟩
  | cas k' w =>
    obtain rfl : k = k' := hkey
    cases hans : L.answer full (.cas k w) with
    | some e =>
      refine ⟨v, hk, iff_of_true le_rfl ?_⟩
      rintro ⟨w', h, -⟩
      cases (Prod.mk.inj h).2
    | none =>
      refine ⟨w.drop 16, Function.update_self _ _ _, ?_⟩
      rw [unixTime_of_answer_cas hk hans, ← not_lt, not_iff_not]
      constructor
      · exact fun hlt => ⟨w, rfl, hlt⟩
      · rintro ⟨w', h, hlt⟩
        cases (Prod.mk.inj h).1
        exact hlt
  | del k' w => exact absurd (congrArg (Op.del · w) hkey.symm) (hdel w)

end Ledger

namespace PMap

variable {hash : Bytes → UInt64} {path : String} {size : ℕ} {c c' c₀ : PMap} {L : Ledger}
  {evs : List (Op × Option Error)} {k v : Bytes}

/-- A `PMap` that requests have led to, in a store that a 32-bit word addresses. -/
def Reached (hash : Bytes → UInt64) (c : PMap) : Prop :=
  ∃ path size evs, size ≤ 2 ^ 32 ∧ Run (Returned hash) (new path size) evs c

theorem Reached.exists_refines (h : c.Reached hash) :
    ∃ L : Ledger, c.Refines hash L ∧ L.size ≤ 2 ^ 32 := by
  obtain ⟨path, size, evs, hsize, hrun⟩ := h
  have hnew := refines_new hash path size
  refine ⟨_, refines_run (run_step hsize (run_answered hsize hrun hnew rfl) hnew rfl), ?_⟩
  rw [Ledger.size_run]
  exact hsize

theorem Reached.run (h : c.Reached hash) (hrun : Run (Returned hash) c evs c') :
    c'.Reached hash := by
  obtain ⟨path, size, evs₀, hsize, h₀⟩ := h
  exact ⟨path, size, evs₀ ++ evs, hsize, h₀.append hrun⟩

/-- **One request** that does not delete the key. -/
theorem Reached.stamp (h : c.Reached hash) {ev : Op × Option Error} (hs : Returned hash c ev c')
    (hk : c.value k = some v) (hdel : ∀ w, ev.1 ≠ .del k w) :
    ∃ v', c'.value k = some v' ∧ (unixTime v ≤ unixTime v' ↔ ¬ Ledger.Backward k ev) := by
  obtain ⟨L, hr, hsize⟩ := h.exists_refines
  by_cases hop : ev.1.Timed
  · have hstep := Answered.step hsize hr ⟨hop, hs⟩
    obtain ⟨hans, hr', -⟩ := hstep.refines hr
    obtain ⟨op, e⟩ := ev
    obtain rfl : e = L.answer c.hm.full op := hans
    rw [hr'.value_eq]
    rw [hr.value_eq] at hk
    exact L.stamp_apply _ hk hdel
  · rw [hs.same hr hop]
    refine ⟨v, hk, iff_of_true le_rfl ?_⟩
    rintro ⟨w, h, -⟩
    rw [h] at hop
    exact hop trivial

/-- A key that is not deleted stays live. -/
theorem Reached.live (hrun : Run (Returned hash) c evs c') (h : c.Reached hash)
    (hk : c.value k ≠ none) (hdel : ∀ ev ∈ evs, ∀ w, ev.1 ≠ .del k w) : c'.value k ≠ none := by
  induction hrun with
  | refl => exact hk
  | cons hs _ ih =>
    obtain ⟨v, hv⟩ := Option.ne_none_iff_exists'.mp hk
    obtain ⟨v', hv', -⟩ := h.stamp hs hv (hdel _ List.mem_cons_self)
    refine ih (h.run (.cons hs (.refl _))) ?_ fun ev hev => hdel ev (List.mem_cons_of_mem _ hev)
    exact hv' ▸ Option.some_ne_none _

/-- What an accepted `CAS` of a live key leaves: its own pair, and it has named the timestamp. -/
theorem Reached.cas (h : c.Reached hash) {w : Bytes} (hs : Returned hash c (.cas k w, none) c')
    (hk : c.value k = some v) : c'.value k = some (w.drop 16) ∧ unixTime v = unixTime w := by
  obtain ⟨L, hr, hsize⟩ := h.exists_refines
  have ha : Answered hash c (.cas k w, none) c' := ⟨trivial, hs⟩
  obtain ⟨hans, hr', -⟩ := (ha.step hsize hr).refines hr
  rw [hr.value_eq] at hk
  refine ⟨?_, Ledger.unixTime_of_answer_cas hk hans.symm⟩
  rw [hr'.value_eq, Ledger.dict_apply]
  exact Function.update_self _ _ _

/-- What a `Set` of a live key leaves. -/
theorem Reached.set (h : c.Reached hash) {w : Bytes} (hs : Returned hash c (.set k w, none) c')
    (hk : c.value k = some v) :
    c'.value k = if unixTime v < unixTime w then some w else some v := by
  obtain ⟨L, hr, hsize⟩ := h.exists_refines
  have ha : Answered hash c (.set k w, none) c' := ⟨trivial, hs⟩
  have hr' := ((ha.step hsize hr).refines hr).2.1
  rw [hr.value_eq] at hk
  rw [hr'.value_eq, Ledger.dict_apply]
  simp only [Dict.step, hk]
  split
  · exact Function.update_self _ _ _
  · exact hk

/-- The timestamp of the key goes back at no point of the run. -/
def NeverBack (hash : Bytes → UInt64) (k : Bytes) (c₀ : PMap) (evs : List (Op × Option Error))
    (c : PMap) : Prop :=
  ∀ as ev bs c₁ c₂, evs = as ++ ev :: bs → Run (Returned hash) c₀ as c₁ → Returned hash c₁ ev c₂ →
    Run (Returned hash) c₂ bs c →
    ∃ v₁ v₂, c₁.value k = some v₁ ∧ c₂.value k = some v₂ ∧ unixTime v₁ ≤ unixTime v₂

/-- **The timestamp of a live key** goes back at no point of a run that does not delete the key,
exactly if every `CAS` of it that is accepted brings a timestamp not before the one it names.  What
such a `CAS` wrote is taken over by a replica with the pair that it replaced, by a `Set`, exactly if
its timestamp is after the one it names, or it is that pair again. -/
theorem timestamp_never_back_iff (h₀ : c₀.Reached hash) (hk : c₀.value k ≠ none)
    (hrun : Run (Returned hash) c₀ evs c) (hdel : ∀ ev ∈ evs, ∀ w, ev.1 ≠ .del k w) :
    (NeverBack hash k c₀ evs c
      ↔ ∀ w, (.cas k w, none) ∈ evs → unixTime w ≤ unixTime (w.drop 16))
    ∧ ∀ w c' d d', Returned hash c (.cas k w, none) c' → d.Reached hash →
      d.value k = c.value k → Returned hash d (.set k (w.drop 16), none) d' →
      (d'.value k = c'.value k
        ↔ unixTime w < unixTime (w.drop 16) ∨ c'.value k = c.value k) := by
  refine ⟨⟨fun h w hw => ?_, fun h as ev bs c₁ c₂ hevs has hs _ => ?_⟩, ?_⟩
  · obtain ⟨as, bs, rfl⟩ := List.append_of_mem hw
    obtain ⟨c₁, has, hrest⟩ := hrun.split
    cases hrest with
    | cons hs hbs =>
      obtain ⟨v₁, v₂, hv₁, hv₂, hle⟩ := h as _ bs c₁ _ rfl has hs hbs
      obtain ⟨hw₂, htime⟩ := (h₀.run has).cas hs hv₁
      rw [← htime, ← Option.some.inj (hv₂.symm.trans hw₂)]
      exact hle
  · subst hevs
    have hlive := h₀.live has hk fun ev hev => hdel ev (List.mem_append_left _ hev)
    obtain ⟨v₁, hv₁⟩ := Option.ne_none_iff_exists'.mp hlive
    have hmem : ev ∈ as ++ ev :: bs := List.mem_append_right _ List.mem_cons_self
    obtain ⟨v₂, hv₂, hiff⟩ := (h₀.run has).stamp hs hv₁ (hdel ev hmem)
    refine ⟨v₁, v₂, hv₁, hv₂, hiff.mpr ?_⟩
    rintro ⟨w, rfl, hlt⟩
    exact absurd (h w hmem) (not_le.mpr hlt)
  · intro w c' d d' hcas hd hsame hset
    obtain ⟨v, hv⟩ := Option.ne_none_iff_exists'.mp (h₀.live hrun hk hdel)
    obtain ⟨hc', htime⟩ := (h₀.run hrun).cas hcas hv
    rw [hd.set hset (hsame.trans hv), hc', hv, htime]
    split
    · next hlt => exact iff_of_true rfl (Or.inl hlt)
    · next hge => exact eq_comm.trans (or_iff_right hge).symm

/-- A pair with the timestamp 5, set again and swapped for a later one. -/
theorem timestamp_never_back_iff_swap : ∃ c₀ c, Run (Returned fnv1a64) c₀
      [(.set [1] (stamped 6 [8]), none),
        (.cas [1] (stamped 6 (leBytes 8 (fnv1a64 [8]).toNat ++ stamped 9 [1])), none)] c
    ∧ c₀.value [1] = some (stamped 5 [7])
    ∧ NeverBack fnv1a64 [1] c₀ [(.set [1] (stamped 6 [8]), none),
        (.cas [1] (stamped 6 (leBytes 8 (fnv1a64 [8]).toNat ++ stamped 9 [1])), none)] c := by
  obtain ⟨c, hrun, -⟩ := exists_run fnv1a64 (new "" 200)
    ([(.set [1] (stamped 5 [7]), none)] ++ [(.set [1] (stamped 6 [8]), none),
      (.cas [1] (stamped 6 (leBytes 8 (fnv1a64 [8]).toNat ++ stamped 9 [1])), none)])
    (fun _ => .ok ()) () (by decide) (by decide +kernel)
  obtain ⟨c₀, hrun₀, hrun⟩ := hrun.split
  have hv : c₀.value [1] = some (stamped 5 [7]) := by
    rw [(run_refines_reference (by decide) hrun₀).2.1]
    decide +kernel
  have hret : Run (Returned fnv1a64) c₀ _ c := hrun.mono fun h => h.2
  have h₀ : c₀.Reached fnv1a64 := ⟨"", 200, _, by decide, hrun₀.mono fun h => h.2⟩
  refine ⟨c₀, c, hret, hv, (timestamp_never_back_iff h₀ (hv ▸ Option.some_ne_none _) hret ?_).1.mpr
    fun w hw => ?_⟩
  · refine List.forall_mem_cons.mpr ⟨fun w h => (by cases h), ?_⟩
    exact List.forall_mem_singleton.mpr fun w h => (by cases h)
  · rcases List.mem_cons.mp hw with h | h
    · cases (Prod.mk.inj h).1
    · cases (Prod.mk.inj (List.mem_singleton.mp h)).1
      decide +kernel

/-- A `PMap` with the pair of timestamp 5, and an event from there. -/
theorem exists_step_of_five (ev : Op × Option Error) (hev : ev.1.Timed)
    (h : ((new "" 200).exec fnv1a64 [.set [1] (stamped 5 [7]), ev.1]).map Prod.fst
      = .ok [(.set [1] (stamped 5 [7]), none), ev]) :
    ∃ c₀ c : PMap, c₀.Reached fnv1a64 ∧ c₀.value [1] = some (stamped 5 [7])
      ∧ Returned fnv1a64 c₀ ev c := by
  obtain ⟨⟨evs, c⟩, hexec, rfl⟩ := Call.map_eq_ok.mp h
  have hset : Op.Timed (.set [1] (stamped 5 [7])) := trivial
  have hrun : Run (Answered fnv1a64) (new "" 200) ([(.set [1] (stamped 5 [7]), none)] ++ [ev]) c :=
    run_of_exec (List.forall_mem_cons.mpr ⟨hset, List.forall_mem_singleton.mpr hev⟩) hexec
  obtain ⟨c₀, hrun₀, hlast⟩ := hrun.split
  cases hlast with
  | cons hs hend =>
    cases hend
    refine ⟨c₀, c, ⟨"", 200, _, by decide, hrun₀.mono fun h => h.2⟩, ?_, hs.2⟩
    rw [(run_refines_reference (by decide) hrun₀).2.1]
    decide +kernel

/-- **A `CAS` that names the timestamp 5 and brings 2** is accepted, and a replica with the pair it
replaced discards what it wrote. -/
theorem cas_goes_back : ∃ c₀ c d d' : PMap, c₀.Reached fnv1a64
    ∧ c₀.value [1] = some (stamped 5 [7])
    ∧ Returned fnv1a64 c₀
      (.cas [1] (stamped 5 (leBytes 8 (fnv1a64 [7]).toNat ++ stamped 2 [1])), none) c
    ∧ c.value [1] = some (stamped 2 [1])
    ∧ d.Reached fnv1a64 ∧ d.value [1] = c₀.value [1]
    ∧ Returned fnv1a64 d (.set [1] (stamped 2 [1]), none) d' ∧ d'.value [1] = d.value [1] := by
  obtain ⟨c₀, c, h₀, hv, hcas⟩ := exists_step_of_five
    (.cas [1] (stamped 5 (leBytes 8 (fnv1a64 [7]).toNat ++ stamped 2 [1])), none)
    trivial (by decide +kernel)
  obtain ⟨d, d', hd, hvd, hset⟩ := exists_step_of_five (.set [1] (stamped 2 [1]), none)
    trivial (by decide +kernel)
  refine ⟨c₀, c, d, d', h₀, hv, hcas, (h₀.cas hcas hv).1, hd, hvd.trans hv.symm, hset, ?_⟩
  rw [hd.set hset hvd, hvd]
  decide +kernel

end PMap

end Treeless
