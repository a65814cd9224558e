import Treeless.Core.Core
import Treeless.Machinery.Run

/-!
# Core/Protection — how long a chunk is protected

    ChunkSetProtected ──▸ protected ──10 s──▸ goroutine wakes ──▸ not protected
                              │                    │
                  ChunkSetProtected again    protectionTime = t ?

Every call of `ChunkSetProtected` starts a goroutine that ends the protection ten seconds later, if
the chunk has not been protected again since.  So a protection is never cut short by an earlier one,
and none is forgotten (`protection_lasts`), whatever happens to the core in the meantime.
-/

namespace Treeless

/-- How long a chunk stays protected, in nanoseconds. -/
def protectionTime : Time := 10 * 1000000000

namespace Core

variable {c : Core} {cid : ℕ}

def isProtected (c : Core) (cid : ℕ) : Call Bool := do return (← c.chunk cid).protected

/-- What the goroutine of a protection does, if it is the last one. -/
def endProtection (c : Core) (cid : ℕ) : Call Core := do
  let chunk ← c.chunk cid
  return c.setChunk cid { chunk with «protected» := false }

/-- Whether each chunk is protected. -/
def protections (c : Core) : ℕ → Option Bool := c.view fun chunk => chunk.protected

theorem isProtected_eq_ok {b : Bool} : c.isProtected cid = .ok b ↔ c.protections cid = some b := by
  rw [isProtected, protections, view, Core.chunk]
  cases c.chunks[cid]? with
  | none => exact ⟨fun h => (by cases h), fun h => (by cases h)⟩
  | some chunk =>
    rw [Call.ok_bind, Option.map_some, Option.some.injEq]
    exact Except.ok.injEq ..|>.to_iff

/-- A chunk that is replaced by one of the same protection. -/
theorem protections_setChunk {chunk₀ : MetaChunk} (h : c.chunk cid = .ok chunk₀)
    (chunk : MetaChunk) (hsame : chunk.protected = chunk₀.protected) :
    (c.setChunk cid chunk).protections = c.protections := by
  have hview : c.protections cid = some chunk₀.protected := view_of_chunk h
  rw [protections, view_setChunk _ h, hsame, ← hview]
  exact Function.update_eq_self ..

theorem protections_setProtected {e : Option CoreError} {c' : Core}
    (h : c.chunkSetProtected cid = .ok (e, c')) : (e ≠ none ∧ c' = c)
      ∨ (e = none ∧ c'.protections = Function.update c.protections cid (some true)) := by
  obtain ⟨chunk, hchunk, h⟩ := Call.bind_eq_ok.mp h
  rw [Flags.setProtected] at h
  split at h
  · cases h
    exact Or.inl ⟨by simp, rfl⟩
  · next flags hflags =>
    cases h
    obtain ⟨-, hflags⟩ := Option.ite_none_right_eq_some.mp hflags
    cases hflags
    exact Or.inr ⟨rfl, view_setChunk _ hchunk _⟩

theorem protections_endProtection {c' : Core} (h : c.endProtection cid = .ok c') :
    c'.protections = Function.update c.protections cid (some false) := by
  obtain ⟨chunk, hchunk, h⟩ := Call.bind_eq_ok.mp h
  cases h
  exact view_setChunk _ hchunk _

theorem protections_new (dbpath : String) (chunkSize numChunks cid : ℕ) :
    (new dbpath chunkSize numChunks).protections cid ≠ some true := by
  rw [protections, view, new, List.getElem?_replicate]
  split <;> simp [Flags.absent]

end Core

namespace World

variable {w w' : World}

theorem protections_openChunk (cid : ℕ) :
    (w.openChunk cid).Returns fun w' => w'.core.protections = w.core.protections := by
  intro w' h
  rw [openChunk] at h
  dsimp only at h
  split at h
  · cases h
    rfl
  · obtain ⟨chunk, hchunk, h⟩ := Call.bind_eq_ok.mp h
    obtain ⟨file, -, h⟩ := Call.bind_eq_ok.mp h
    obtain ⟨pm, -, h⟩ := Call.bind_eq_ok.mp h
    cases h
    exact Core.protections_setChunk hchunk _ rfl

theorem protections_openAll :
    w.openAll.Returns fun w' => w'.core.protections = w.core.protections :=
  Call.Returns.foldlM (P := fun w' : World => w'.core.protections = w.core.protections)
    (fun w₁ cid h w' hx => (w₁.protections_openChunk cid w' hx).trans h) _ rfl

theorem protections_setNoPresent {cid : ℕ} (h : w.chunkSetNoPresent cid = .ok w') :
    w' = w ∨ w'.core.protections = Function.update w.core.protections cid (some false) := by
  obtain ⟨chunk, hchunk, h⟩ := Call.bind_eq_ok.mp h
  split at h
  · next hpresent =>
    obtain ⟨pm, -, h⟩ := Call.bind_eq_ok.mp h
    cases h
    refine Or.inr ((Core.view_setChunk _ hchunk _).trans ?_)
    rw [Flags.setNoPresent, if_pos hpresent]
    rfl
  · cases h
    exact Or.inl rfl

/-- **What happens to a core does not protect a chunk, nor end a protection**, except that the chunk
is removed. -/
theorem protections_step {ev : Treeless.Event} (hs : w.Steps ev w')
    (hprotect : ∀ cid, ev ≠ .setProtected cid) (hrestart : ev ≠ .restart) (cid : ℕ) :
    w'.core.protections cid = w.core.protections cid
      ∨ ev = .setNoPresent cid ∧ w'.core.protections cid = some false := by
  cases ev with
  | request isSynced op =>
    obtain ⟨r, hr, hs⟩ := Call.bind_eq_ok.mp hs
    cases hs
    rcases Core.request_cases hr with heq | ⟨chunk, pm, e, pm', hchunk, -, -, heq⟩
    · exact Or.inl (by rw [heq])
    · exact Or.inl (congrFun (heq ▸ Core.protections_setChunk hchunk
        { chunk with pm := some pm' } rfl) cid)
  | openAll => exact Or.inl (congrFun (w.protections_openAll w' hs) cid)
  | setPresent cid' =>
    obtain ⟨chunk, hchunk, hs⟩ := Call.bind_eq_ok.mp hs
    split at hs
    · cases hs
      exact Or.inl rfl
    · cases hs
      exact Or.inl (congrFun (Core.protections_setChunk hchunk
        { chunk with pm := _, present := true } rfl) cid)
  | setNoPresent cid' =>
    rcases protections_setNoPresent hs with rfl | heq
    · exact Or.inl rfl
    · rw [heq, Function.update_apply]
      split
      · next hcid => exact Or.inr ⟨by rw [hcid], rfl⟩
      · exact Or.inl rfl
  | setProtected cid' => exact absurd rfl (hprotect cid')
  | defrag cid' =>
    obtain ⟨chunk, hchunk, hs⟩ := Call.bind_eq_ok.mp hs
    obtain ⟨old, -, hs⟩ := Call.bind_eq_ok.mp hs
    obtain ⟨pm, -, hs⟩ := Call.bind_eq_ok.mp hs
    cases hs
    exact Or.inl (congrFun (Core.protections_setChunk hchunk
      { chunk with pm := some pm, revision := chunk.revision + 1 } rfl) cid)
  | restart => exact absurd rfl hrestart

end World

/-! ## Goroutines that end protections -/

/-- A core, and the goroutines that end its protections. -/
structure Guardian where
  world : World
  /-- When a chunk was protected last; `none` is the zero time. -/
  protectedAt : ℕ → Option Time
  /-- The goroutines that sleep: the chunk of each, and when it was protected. -/
  sleepers : List (ℕ × Time)
  now : Time

namespace Guardian

def new (dbpath : String) (chunkSize numChunks : ℕ) (files : List (String × File)) (now : Time) :
    Guardian := ⟨⟨.new dbpath chunkSize numChunks, files⟩, fun _ => none, [], now⟩

inductive Event
  /-- Anything that happens to a core, but `ChunkSetProtected` and a new process. -/
  | core (ev : Treeless.Event)
  | protect (cid : ℕ) (e : Option CoreError)
  /-- The goroutine that was started when the chunk was protected at the time `t` wakes up. -/
  | wake (cid : ℕ) (t : Time)
  | restart
  /-- The clock shows a later time. -/
  | pass (t : Time)

/-- The event takes the core and its goroutines from `s` to `s'`. -/
def Steps (s : Guardian) : Event → Guardian → Prop
  | .core ev, s' => (∀ cid, ev ≠ .setProtected cid) ∧ ev ≠ .restart
    ∧ ∃ world, s.world.Steps ev world ∧ s' = { s with world }
  | .protect cid e, s' => ∃ core, s.world.core.chunkSetProtected cid = .ok (e, core)
    ∧ s' = match e with
      | none => { s with
        world := { s.world with core }
        protectedAt := Function.update s.protectedAt cid (some s.now)
        sleepers := (cid, s.now) :: s.sleepers }
      | some _ => { s with world := { s.world with core } }
  | .wake cid t, s' => (cid, t) ∈ s.sleepers ∧ t + protectionTime ≤ s.now
    ∧ if s.protectedAt cid = some t then
        ∃ core, s.world.core.endProtection cid = .ok core ∧ s' = { s with
          world := { s.world with core }
          protectedAt := Function.update s.protectedAt cid none
          sleepers := s.sleepers.erase (cid, t) }
      else s' = { s with sleepers := s.sleepers.erase (cid, t) }
  | .restart, s' => s' = ⟨s.world.restart, fun _ => none, [], s.now⟩
  | .pass t, s' => s.now ≤ t ∧ s' = { s with now := t }

variable {s s' : Guardian} {e : Event} {cid : ℕ}

/-- The chunk is protected. -/
def Protected (s : Guardian) (cid : ℕ) : Prop := s.world.core.protections cid = some true

/-- **What a step does to the protection of a chunk.** -/
inductive Turns (s : Guardian) (cid : ℕ) : Event → Guardian → Prop
  /-- Nothing happens to the chunk. -/
  | same {e : Event} {s' : Guardian} (protect : e ≠ .protect cid none)
      (wake : ∀ t, s.protectedAt cid = some t → e ≠ .wake cid t)
      (protections : s'.Protected cid ↔ s.Protected cid)
      (at_eq : s'.protectedAt cid = s.protectedAt cid)
      (sleepers : ∀ t, (cid, t) ∈ s.sleepers → s.protectedAt cid = some t →
        (cid, t) ∈ s'.sleepers) : Turns s cid e s'
  /-- It is protected. -/
  | guarded {s' : Guardian} (protections : s'.Protected cid)
      (at_eq : s'.protectedAt cid = some s.now) (sleepers : (cid, s.now) ∈ s'.sleepers) :
      Turns s cid (.protect cid none) s'
  /-- Its last protection ends. -/
  | ended {t : Time} {s' : Guardian} (at_eq : s.protectedAt cid = some t)
      (due : t + protectionTime ≤ s.now) (protections : ¬ s'.Protected cid) :
      Turns s cid (.wake cid t) s'
  /-- It is removed, or the process ends. -/
  | lost {e : Event} {s' : Guardian} (cause : e = .core (.setNoPresent cid) ∨ e = .restart)
      (protections : ¬ s'.Protected cid) : Turns s cid e s'

theorem steps_turns (hs : s.Steps e s') (cid : ℕ) : s.Turns cid e s' := by
  cases e with
  | core ev =>
    obtain ⟨hprotect, hrestart, world, hs, rfl⟩ := hs
    rcases World.protections_step hs hprotect hrestart cid with heq | ⟨rfl, hfalse⟩
    · exact .same (by simp) (by simp) (by rw [Protected, Protected, heq]) rfl fun _ ht _ => ht
    · refine .lost (Or.inl rfl) ?_
      rw [Protected, hfalse]
      simp
  | protect cid' e =>
    obtain ⟨core, hset, rfl⟩ := hs
    rcases Core.protections_setProtected hset with ⟨hne, rfl⟩ | ⟨rfl, heq⟩
    · obtain ⟨e, rfl⟩ := Option.ne_none_iff_exists'.mp hne
      exact .same (by simp) (by simp) Iff.rfl rfl fun _ ht _ => ht
    · by_cases hcid : cid = cid'
      · subst hcid
        refine .guarded ?_ (Function.update_self ..) List.mem_cons_self
        rw [Protected, heq, Function.update_self]
      · refine .same (by simpa using Ne.symm hcid) (by simp) ?_ (Function.update_of_ne hcid ..)
          fun t ht _ => List.mem_cons_of_mem _ ht
        rw [Protected, Protected, heq, Function.update_of_ne hcid]
  | wake cid' t =>
    obtain ⟨hmem, hdue, hs⟩ := hs
    split at hs
    · next hat =>
      obtain ⟨core, hend, rfl⟩ := hs
      have heq := Core.protections_endProtection hend
      by_cases hcid : cid = cid'
      · subst hcid
        refine .ended hat hdue ?_
        rw [Protected, heq, Function.update_self]
        simp
      · refine .same (by simp) (fun _ _ => by simpa using fun h => absurd h.symm hcid) ?_
          (Function.update_of_ne hcid ..) fun t' ht' _ => ?_
        · rw [Protected, Protected, heq, Function.update_of_ne hcid]
        · exact (List.mem_erase_of_ne (by simp [hcid])).mpr ht'
    · next hat =>
      subst hs
      refine .same (by simp) (fun t' hat' heq => ?_) Iff.rfl rfl fun t' ht' hat' => ?_
      · obtain ⟨rfl, rfl⟩ := Event.wake.inj heq
        exact hat hat'
      · refine (List.mem_erase_of_ne fun heq => hat ?_).mpr ht'
        obtain ⟨rfl, rfl⟩ := Prod.mk.inj heq
        exact hat'
  | restart =>
    obtain rfl := hs
    exact .lost (Or.inr rfl) (Core.protections_new _ _ _ cid)
  | pass t =>
    obtain ⟨hle, rfl⟩ := hs
    exact .same (by simp) (by simp) Iff.rfl rfl fun _ ht _ => ht

/-- The clock does not go back. -/
theorem now_le (hs : s.Steps e s') : s.now ≤ s'.now := by
  cases e with
  | core ev =>
    obtain ⟨-, -, world, -, rfl⟩ := hs
    exact le_rfl
  | protect cid e =>
    obtain ⟨core, -, rfl⟩ := hs
    cases e <;> exact le_rfl
  | wake cid t =>
    obtain ⟨-, -, hs⟩ := hs
    split at hs
    · obtain ⟨core, -, rfl⟩ := hs
      exact le_rfl
    · subst hs
      exact le_rfl
  | restart =>
    obtain rfl := hs
    exact le_rfl
  | pass t =>
    obtain ⟨hle, rfl⟩ := hs
    exact hle

/-- **No protection is forgotten**: a goroutine sleeps that will end it. -/
def Watched (s : Guardian) : Prop :=
  ∀ cid, s.Protected cid → ∃ t, s.protectedAt cid = some t ∧ (cid, t) ∈ s.sleepers

theorem Watched.step (h : s.Watched) (hs : s.Steps e s') : s'.Watched := by
  intro cid hcid
  cases steps_turns hs cid with
  | same _ _ hprot hat hsleep =>
    obtain ⟨t, hat', ht⟩ := h cid (hprot.mp hcid)
    exact ⟨t, hat.trans hat', hsleep t ht hat'⟩
  | guarded _ hat hsleep => exact ⟨s.now, hat, hsleep⟩
  | ended _ _ hprot => exact absurd hcid hprot
  | lost _ hprot => exact absurd hcid hprot

/-- The chunk was protected at the time `t` or later. -/
structure Since (t : Time) (cid : ℕ) (s : Guardian) : Prop where
  protections : s.Protected cid
  at_eq : ∃ t', s.protectedAt cid = some t' ∧ t ≤ t'
  now : t ≤ s.now

/-- **No protection is cut short.** -/
theorem Since.step {t : Time} (h : Since t cid s) (hs : s.Steps e s')
    (hkeep : e ≠ .core (.setNoPresent cid) ∧ e ≠ .restart) (hnow : s.now < t + protectionTime) :
    Since t cid s' := by
  obtain ⟨t', hat, hle⟩ := h.at_eq
  cases steps_turns hs cid with
  | same _ _ hprot hat' _ =>
    exact ⟨hprot.mpr h.protections, ⟨t', hat'.trans hat, hle⟩, h.now.trans (now_le hs)⟩
  | guarded hprot hat' _ => exact ⟨hprot, ⟨s.now, hat', h.now⟩, h.now.trans (now_le hs)⟩
  | ended hat' hdue _ =>
    obtain rfl := Option.some.inj (hat.symm.trans hat')
    exact absurd hnow (not_lt.mpr ((Int.add_le_add_right hle protectionTime).trans hdue))
  | lost hcause _ => exact absurd hcause (not_or.mpr hkeep)

variable {dbpath : String} {chunkSize numChunks : ℕ} {files : List (String × File)} {start : Time}

theorem watched_run {es : List Event}
    (hrun : Run Steps (new dbpath chunkSize numChunks files start) es s) : s.Watched :=
  hrun.invariant (fun h hs => Watched.step h hs) fun cid hcid =>
    absurd hcid (Core.protections_new dbpath chunkSize numChunks cid)

/-- While ten seconds have not passed. -/
theorem Since.run {t : Time} {es : List Event} (hrun : Run Steps s es s')
    (hkeep : ∀ e ∈ es, e ≠ .core (.setNoPresent cid) ∧ e ≠ .restart) (h : Since t cid s)
    (hnow : s'.now < t + protectionTime) : Since t cid s' := by
  induction hrun with
  | refl => exact h
  | cons hs hrun ih =>
    have hle := hrun.invariant (I := fun s' => _ ≤ s'.now) (fun h hs => h.trans (now_le hs)) le_rfl
    exact ih (fun e he => hkeep e (List.mem_cons_of_mem _ he))
      (h.step hs (hkeep _ List.mem_cons_self) (((now_le hs).trans hle).trans_lt hnow)) hnow

/-- **A protection lasts ten seconds, and ends.**  Whatever happens to a core, a chunk that
`ChunkSetProtected` has protected is protected until it is removed, the process ends or ten seconds
have passed, no matter which goroutines of earlier protections wake up in the meantime.  And for
every chunk that is protected a goroutine sleeps, whose waking ends the protection. -/
theorem protection_lasts {es es' : List Event} {s₀ s₁ : Guardian} {cid : ℕ}
    (hrun : Run Steps (new dbpath chunkSize numChunks files start) es s₀)
    (hprotect : s₀.Steps (.protect cid none) s₁) (hrun' : Run Steps s₁ es' s) :
    ((∀ e ∈ es', e ≠ .core (.setNoPresent cid) ∧ e ≠ .restart) →
      s.now < s₀.now + protectionTime → s.world.core.isProtected cid = .ok true)
    ∧ ∀ c, s.world.core.isProtected c = .ok true → ∃ t, (c, t) ∈ s.sleepers
      ∧ ∀ s', s.Steps (.wake c t) s' → s'.world.core.isProtected c ≠ .ok true := by
  refine ⟨fun hkeep hnow => ?_, fun c hc => ?_⟩
  · have hsince : Since s₀.now cid s₁ := by
      cases steps_turns hprotect cid with
      | same hnot _ _ _ _ => exact absurd rfl hnot
      | guarded hprot hat _ => exact ⟨hprot, ⟨s₀.now, hat, le_rfl⟩, now_le hprotect⟩
      | lost hcause _ => rcases hcause with h | h <;> cases h
    exact Core.isProtected_eq_ok.mpr (hsince.run hrun' hkeep hnow).protections
  · have hwatched := watched_run (hrun.append (.cons hprotect hrun'))
    obtain ⟨t, hat, ht⟩ := hwatched c (Core.isProtected_eq_ok.mp hc)
    refine ⟨t, ht, fun s' hs hprot => ?_⟩
    cases steps_turns hs c with
    | same _ hwake _ _ _ => exact hwake t hat rfl
    | ended _ _ hnot => exact hnot (Core.isProtected_eq_ok.mp hprot)
    | lost hcause _ => rcases hcause with h | h <;> cases h

/-- A chunk that is protected for a second time after five seconds, and five seconds later, when the
goroutine of the first time has woken up. -/
theorem protection_lasts_twice : ∃ s₀ s₁ s : Guardian,
    Run Steps (new "" 64 1 [] 0) [.core (.setPresent 0), .protect 0 none, .pass 5000000000] s₀
    ∧ s₀.Steps (.protect 0 none) s₁ ∧ Run Steps s₁ [.pass 10000000000, .wake 0 0] s
    ∧ s.world.core.isProtected 0 = .ok true := by
  obtain ⟨s₀, hrun, hprotect⟩ : ∃ s₀, Run Steps (new "" 64 1 [] 0)
      [.core (.setPresent 0), .protect 0 none, .pass 5000000000] s₀ ∧ ∃ s₁,
      s₀.Steps (.protect 0 none) s₁ ∧ ∃ s, Run Steps s₁ [.pass 10000000000, .wake 0 0] s
        ∧ s.now = 10000000000 ∧ s₀.now = 5000000000 :=
    ⟨_, .cons ⟨by simp, by simp, _, rfl, rfl⟩ (.cons ⟨_, rfl, rfl⟩
      (.cons ⟨by decide, rfl⟩ (.refl _))), _, ⟨_, rfl, rfl⟩, _, .cons ⟨by decide, rfl⟩
      (.cons ⟨by decide, by decide, rfl⟩ (.refl _)), rfl, rfl⟩
  obtain ⟨s₁, hprotect, s, hrun', hnow, hnow₀⟩ := hprotect
  refine ⟨s₀, s₁, s, hrun, hprotect, hrun', ?_⟩
  exact (protection_lasts hrun hprotect hrun').1 (by simp) (by rw [hnow, hnow₀]; decide)

end Guardian

end Treeless
