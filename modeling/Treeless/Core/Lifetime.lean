import Mathlib.Data.Set.Finite.Basic
import Mathlib.Logic.Function.Basic
import Treeless.Machinery.Bytes
import Treeless.Machinery.Guard

/-!
# Core/Lifetime — which `PMap` a step goes through

The `PMap` of a chunk is replaced by the defragmenter and dropped by `ChunkSetNoPresent`, and the
one the chunk had is closed.  Two things outlive it:

* a `defragOp`, which a `Delete` sends when it has unlocked the chunk, and the defragmenter takes
  later; it dereferences the pointer of the chunk as it is then, once for the log with nothing
  locked, and again when it has its locks;
* an iteration, which goes on with the `PMap` it started with, and unlocks the chunk during every
  callback.  `BackwardsIterate` has the chunk's `defragMutex` meanwhile, which keeps out the
  defragmenter, and nothing else; `Iterate` does not.

    Delete ──► sending ──► queue (256) ──► taken ──► defragmented

A step here is what is done with the chunk locked, or between two locks.  The `PMap`s of a chunk are
numbered.
-/

namespace Treeless

/-- A chunk; `closed` says which of its `PMap`s, the first `made` numbers, have been closed. -/
structure ChunkLife (ι : Type) where
  present : Bool
  pm : Option ℕ
  made : ℕ
  closed : ℕ → Bool
  defragMutex : Option ι

/-- Where an iteration is. -/
inductive IterAt
  | idle
  /-- In a callback, on the `PMap` of number `p`. -/
  | calling (backwards : Bool) (c p : ℕ)
  deriving DecidableEq, Repr

namespace ChunkLife

variable {ι : Type} (k : ChunkLife ι)

/-- A chunk that is not here. -/
def new (ι : Type) : ChunkLife ι := ⟨false, none, 0, fun _ => false, none⟩

/-- `chunk.pm`, not `nil`. -/
def deref : Call ℕ :=
  match k.pm with
  | some p => .ok p
  | none => .error .panic

/-- Reads or writes the store of a `PMap`; the file of a closed one is `nil`. -/
def access (p : ℕ) : Call Unit := if k.closed p then .error .bounds else .ok ()

/-- Closes a `PMap`, which panics if it is closed. -/
def close (p : ℕ) : Call (ChunkLife ι) :=
  if k.closed p then .error .panic else .ok { k with closed := Function.update k.closed p true }

/-- `pmap.New` for the chunk. -/
def renew : ChunkLife ι :=
  { k with
    pm := some k.made
    made := k.made + 1
    closed := Function.update k.closed k.made false }

/-- What the defragmenter does. -/
def defrag : Call (ChunkLife ι) := do
  let old ← k.deref
  let k := k.renew
  k.access old
  k.close old

def chunkSetPresent : ChunkLife ι := if k.present then k else { k.renew with present := true }

def chunkSetNoPresent : Call (ChunkLife ι) := do
  if k.present then
    let p ← k.deref
    let k ← k.close p
    return { k with pm := none, present := false }
  else return k

/-! ## One chunk -/

/-- The chunk has a `PMap` if it is present, and that is open. -/
structure Sound (k : ChunkLife ι) : Prop where
  present_iff : k.present = true ↔ k.pm ≠ none
  lt_made : ∀ p, k.pm = some p → p < k.made
  isOpen : ∀ p, k.pm = some p → k.closed p = false

variable {k}

theorem sound_new : (new ι).Sound :=
  ⟨⟨fun h => (by cases h), fun h => absurd rfl h⟩, fun p h => (by cases h), fun p h => (by cases h)⟩

theorem Sound.exists_pm (h : k.Sound) (hpres : k.present = true) : ∃ p, k.pm = some p :=
  Option.ne_none_iff_exists'.mp (h.present_iff.mp hpres)

theorem deref_eq {p : ℕ} (hp : k.pm = some p) : k.deref = .ok p := by
  rw [deref, hp]

theorem Sound.access_eq (h : k.Sound) {p : ℕ} (hp : k.pm = some p) : k.access p = .ok () := by
  rw [access, h.isOpen p hp]
  rfl

theorem access_closed {p : ℕ} (hp : k.closed p = true) : k.access p = .error .bounds := by
  rw [access, if_pos hp]

/-- **The defragmenter** closes the `PMap` of a chunk, and leaves the chunk with another. -/
theorem Sound.defrag_eq (h : k.Sound) {p : ℕ} (hp : k.pm = some p) :
    ∃ k', k.defrag = .ok k' ∧ k'.Sound ∧ k'.closed p = true ∧ k'.present = k.present
      ∧ k'.defragMutex = k.defragMutex := by
  have hlt := h.lt_made p hp
  have hne : p ≠ k.made := Nat.ne_of_lt hlt
  have hopen : (k.renew).closed p = false := by
    dsimp only [ChunkLife.renew]
    rw [Function.update_of_ne hne]
    exact h.isOpen p hp
  rw [ChunkLife.defrag, deref_eq hp, Call.ok_bind]
  dsimp only
  rw [access, hopen, if_neg Bool.false_ne_true, Call.ok_bind, close, hopen,
    if_neg Bool.false_ne_true]
  have hpres : k.present = true := h.present_iff.mpr (hp ▸ Option.some_ne_none p)
  refine ⟨_, rfl, ⟨iff_of_true hpres (Option.some_ne_none _), fun q hq => ?_, fun q hq => ?_⟩,
    Function.update_self _ _ _, rfl, rfl⟩
  · cases hq
    exact Nat.lt_succ_self _
  · cases hq
    dsimp only [ChunkLife.renew]
    rw [Function.update_of_ne hne.symm, Function.update_self]

theorem Sound.chunkSetPresent (h : k.Sound) : k.chunkSetPresent.Sound := by
  rw [ChunkLife.chunkSetPresent]
  split
  · exact h
  · refine ⟨iff_of_true rfl (Option.some_ne_none _), fun q hq => ?_, fun q hq => ?_⟩
    · cases hq
      exact Nat.lt_succ_self _
    · cases hq
      exact Function.update_self _ _ _

theorem present_chunkSetPresent : k.chunkSetPresent.present = true := by
  rw [ChunkLife.chunkSetPresent]
  split
  · next h => exact h
  · rfl

theorem defragMutex_chunkSetPresent : k.chunkSetPresent.defragMutex = k.defragMutex := by
  rw [ChunkLife.chunkSetPresent]
  split <;> rfl

/-- **`ChunkSetNoPresent`** closes the `PMap` of a chunk that is present. -/
theorem Sound.chunkSetNoPresent_eq (h : k.Sound) {p : ℕ} (hp : k.pm = some p) :
    ∃ k', k.chunkSetNoPresent = .ok k' ∧ k'.Sound ∧ k'.closed p = true ∧ k'.pm = none
      ∧ k'.defragMutex = k.defragMutex := by
  have hpres : k.present = true := h.present_iff.mpr (hp ▸ Option.some_ne_none p)
  rw [ChunkLife.chunkSetNoPresent, if_pos hpres, deref_eq hp, Call.ok_bind, close, h.isOpen p hp,
    if_neg Bool.false_ne_true, Call.ok_bind]
  exact ⟨_, rfl, ⟨iff_of_false Bool.false_ne_true fun hno => hno rfl, fun q hq => (by cases hq),
    fun q hq => (by cases hq)⟩, Function.update_self _ _ _, rfl, rfl⟩

end ChunkLife

/-- How many `defragOp`s the channel of the defragmenter has room for. -/
def defragBufferSize : ℕ := 256

/-- The chunks, the `defragOp`s and the iterations. -/
structure Lifetimes (ι : Type) where
  chunks : ℕ → ChunkLife ι
  /-- The `Delete`s that have unlocked their chunk, and have a `defragOp` to send. -/
  sending : List ℕ
  /-- The channel of the defragmenter. -/
  queue : List ℕ
  /-- The `defragOp` that the defragmenter has taken. -/
  taken : Option ℕ
  iters : ι → IterAt

namespace Lifetimes

/-- A core without chunks. -/
def new (ι : Type) : Lifetimes ι := ⟨fun _ => .new ι, [], [], none, fun _ => .idle⟩

inductive Event (ι : Type)
  /-- `Delete`, while it has the chunk locked; `queues` if enough of the chunk is deleted. -/
  | delete (c : ℕ) (queues : Bool)
  /-- A `Delete` that has unlocked the chunk sends its `defragOp`. -/
  | send (c : ℕ)
  /-- The defragmenter takes a `defragOp`, and logs it. -/
  | take
  /-- The defragmenter gets its locks, and does what it has taken. -/
  | defrag
  /-- `Iterate` or `BackwardsIterate` starts; `more` if it comes to a callback. -/
  | start (i : ι) (backwards : Bool) (c : ℕ) (more : Bool)
  /-- A callback returns `goOn`; `more` if the iteration then comes to another one. -/
  | turn (i : ι) (goOn more : Bool)
  | chunkSetPresent (c : ℕ)
  | chunkSetNoPresent (c : ℕ)

variable {ι : Type} [DecidableEq ι] (s : Lifetimes ι)

def setChunk (c : ℕ) (k : ChunkLife ι) : Lifetimes ι :=
  { s with chunks := Function.update s.chunks c k }

/-- The iteration is in a callback. -/
def callback (i : ι) (backwards : Bool) (c p : ℕ) : Lifetimes ι :=
  { s with
    chunks := if backwards then
      Function.update s.chunks c { s.chunks c with defragMutex := some i } else s.chunks
    iters := Function.update s.iters i (.calling backwards c p) }

/-- The iteration has ended. -/
def ended (i : ι) (backwards : Bool) (c : ℕ) : Lifetimes ι :=
  { s with
    chunks := if backwards then
      Function.update s.chunks c { s.chunks c with defragMutex := none } else s.chunks
    iters := Function.update s.iters i .idle }

/-- What an event does; `none` if it cannot happen. -/
def next : Event ι → Option (Call (Lifetimes ι))
  | .delete c queues => some do
    if (s.chunks c).present then
      let p ← (s.chunks c).deref
      (s.chunks c).access p
      return if queues then { s with sending := c :: s.sending } else s
    else return s
  | .send c =>
    if c ∈ s.sending ∧ s.queue.length < defragBufferSize then
      some (.ok { s with sending := s.sending.erase c, queue := s.queue ++ [c] })
    else none
  | .take =>
    match s.taken, s.queue with
    | none, c :: queue => some do
      let p ← (s.chunks c).deref
      (s.chunks c).access p
      return { s with queue, taken := some c }
    | _, _ => none
  | .defrag =>
    match s.taken with
    | some c =>
      if (s.chunks c).defragMutex = none then some do
        let k ← (s.chunks c).defrag
        return { s.setChunk c k with taken := none }
      else none
    | none => none
  | .start i backwards c more =>
    if s.iters i ≠ .idle then none
    else if (s.chunks c).present then
      if backwards ∧ (s.chunks c).defragMutex ≠ none then none
      else some do
        let p ← (s.chunks c).deref
        (s.chunks c).access p
        return if more then s.callback i backwards c p else s
    else some (.ok s)
  | .turn i goOn more =>
    match s.iters i with
    | .idle => none
    | .calling backwards c p => some do
      if goOn then
        (s.chunks c).access p
        return if more then s else s.ended i backwards c
      else return s.ended i backwards c
  | .chunkSetPresent c => some (.ok (s.setChunk c (s.chunks c).chunkSetPresent))
  | .chunkSetNoPresent c => some do return s.setChunk c (← (s.chunks c).chunkSetNoPresent)

/-- The steps of the core; there is none after a fault. -/
def Step (r : Call (Lifetimes ι)) (ev : Event ι) (r' : Call (Lifetimes ι)) : Prop :=
  ∃ s, r = .ok s ∧ s.next ev = some r'

/-- **A step went through a `nil` pointer or a closed `PMap`.** -/
def Faulted (r : Call (Lifetimes ι)) : Prop := ∃ e, r = .error e

/-- A `defragOp` of the chunk is to be sent, is in the channel or has been taken. -/
def Due (c : ℕ) : Prop := c ∈ s.sending ∨ c ∈ s.queue ∨ s.taken = some c

/-- A chunk is dropped only while no `defragOp` of it is due and no iteration of it is in a
callback, and defragmented only while no `Iterate` of it is. -/
def Careful (r : Call (Lifetimes ι)) (ev : Event ι) : Prop := ∀ s, r = .ok s →
  match ev with
  | .chunkSetNoPresent c => (s.chunks c).present = true →
    ¬ s.Due c ∧ ∀ i backwards p, s.iters i ≠ .calling backwards c p
  | .defrag => ∀ c, s.taken = some c → ∀ i p, s.iters i ≠ .calling false c p
  | _ => True

/-! ## The invariant -/

/-- What every step keeps that returns: the chunks are sound, the owner of a `defragMutex` is in a
callback, and few iterations are. -/
structure Tidy (s : Lifetimes ι) : Prop where
  sound : ∀ c, (s.chunks c).Sound
  locked : ∀ c i, (s.chunks c).defragMutex = some i → ∃ p, s.iters i = .calling true c p
  finite : {i | s.iters i ≠ .idle}.Finite

/-- What careful steps keep: a `defragOp` is of a chunk that is present, and an iteration in a
callback is on the `PMap` of its chunk. -/
structure Live (s : Lifetimes ι) : Prop extends s.Tidy where
  due : ∀ c, s.Due c → (s.chunks c).present = true
  calling : ∀ i b c p, s.iters i = .calling b c p → (s.chunks c).pm = some p
  owned : ∀ i c p, s.iters i = .calling true c p → (s.chunks c).defragMutex = some i

variable {s}

omit [DecidableEq ι] in
theorem live_new : (new ι).Live where
  sound _ := ChunkLife.sound_new
  locked _ _ h := by cases h
  finite := by
    have hnone : {i | (new ι).iters i ≠ .idle} = ∅ :=
      Set.eq_empty_of_forall_notMem fun i hi => hi rfl
    rw [hnone]
    exact Set.finite_empty
  due _ h := by
    rcases h with h | h | h
    · cases h
    · cases h
    · cases h
  calling _ _ _ _ h := by cases h
  owned _ _ _ h := by cases h

omit [DecidableEq ι] in
theorem setChunk_chunks (s : Lifetimes ι) (c : ℕ) (k : ChunkLife ι) (c' : ℕ) :
    (s.setChunk c k).chunks c' = if c' = c then k else s.chunks c' := Function.update_apply ..

omit [DecidableEq ι] in
/-- A sound chunk that keeps its mutex. -/
theorem Tidy.setChunk (h : s.Tidy) {c : ℕ} {k : ChunkLife ι} (hk : k.Sound)
    (hmutex : k.defragMutex = (s.chunks c).defragMutex) : (s.setChunk c k).Tidy := by
  refine ⟨fun c' => ?_, fun c' i hi => ?_, h.finite⟩
  · rw [setChunk_chunks]
    split
    · exact hk
    · exact h.sound c'
  · rw [setChunk_chunks] at hi
    split at hi
    · next hc => exact h.locked c' i (hc ▸ hmutex ▸ hi)
    · exact h.locked c' i hi

omit [DecidableEq ι] in
/-- A chunk that changes as its `defragOp`s and iterations allow. -/
theorem Live.setChunk (h : s.Live) {c : ℕ} {k : ChunkLife ι} (hk : k.Sound)
    (hmutex : k.defragMutex = (s.chunks c).defragMutex) (hdue : s.Due c → k.present = true)
    (hcalling : ∀ i b p, s.iters i = .calling b c p → k.pm = some p) :
    (s.setChunk c k).Live := by
  refine ⟨h.toTidy.setChunk hk hmutex, fun c' hc' => ?_, fun i b c' p hi => ?_, fun i c' p hi => ?_⟩
    <;> rw [setChunk_chunks]
    <;> split
  · next hc => exact hdue (hc ▸ hc')
  · exact h.due c' hc'
  · next hc => exact hcalling i b p (hc ▸ hi)
  · exact h.calling i b c' p hi
  · next hc =>
    subst hc
    exact hmutex.trans (h.owned i c' p hi)
  · exact h.owned i c' p hi

/-- An iteration that moves. -/
theorem finite_update (h : s.Tidy) (i : ι) (w : IterAt) :
    {j | Function.update s.iters i w j ≠ .idle}.Finite := by
  refine (h.finite.insert i).subset fun j hj => ?_
  rcases eq_or_ne j i with rfl | hne
  · exact Set.mem_insert ..
  · refine Set.mem_insert_of_mem _ fun hidle => hj ?_
    rw [Function.update_of_ne hne, hidle]

omit [DecidableEq ι] in
/-- The chunks after the mutex of one has been locked or unlocked. -/
theorem sound_mutex (h : s.Tidy) (b : Bool) (c : ℕ) (owner : Option ι) (c' : ℕ) :
    ((if b then Function.update s.chunks c { s.chunks c with defragMutex := owner } else s.chunks)
      c').Sound := by
  split
  · rw [Function.update_apply]
    split
    · obtain ⟨hpres, hlt, hopen⟩ := h.sound c
      exact ⟨hpres, hlt, hopen⟩
    · exact h.sound c'
  · exact h.sound c'

/-- **An iteration ends.** -/
theorem Tidy.ended (h : s.Tidy) {i : ι} {b : Bool} {c p : ℕ} (hi : s.iters i = .calling b c p) :
    (s.ended i b c).Tidy := by
  refine ⟨sound_mutex h b c none, fun c' j hj => ?_, finite_update h i .idle⟩
  dsimp only [Lifetimes.ended] at hj ⊢
  -- another chunk, or an iteration that has no mutex: its owner is another one
  have hold : (s.chunks c').defragMutex = some j → (b = true → c' ≠ c) →
      ∃ p, Function.update s.iters i .idle j = .calling true c' p := fun hj hne => by
    obtain ⟨q, hq⟩ := h.locked c' j hj
    refine ⟨q, ?_⟩
    rw [Function.update_of_ne, hq]
    rintro rfl
    cases hi.symm.trans hq
    exact hne rfl rfl
  split at hj
  · rw [Function.update_apply] at hj
    split at hj
    · cases hj
    · next hne => exact hold hj fun _ => hne
  · next hb => exact hold hj fun h => absurd h hb

/-- **An iteration comes to a callback**, from the start. -/
theorem Tidy.callback (h : s.Tidy) {i : ι} {b : Bool} {c : ℕ} (p : ℕ) (hi : s.iters i = .idle) :
    (s.callback i b c p).Tidy := by
  refine ⟨sound_mutex h b c (some i), fun c' j hj => ?_, finite_update h i _⟩
  dsimp only [Lifetimes.callback] at hj ⊢
  have hold : (s.chunks c').defragMutex = some j →
      ∃ q, Function.update s.iters i (.calling b c p) j = .calling true c' q := fun hj => by
    obtain ⟨q, hq⟩ := h.locked c' j hj
    refine ⟨q, ?_⟩
    rw [Function.update_of_ne, hq]
    rintro rfl
    cases hi.symm.trans hq
  split at hj
  · next hb =>
    rw [Function.update_apply] at hj
    split at hj
    · next hc =>
      cases hj
      exact ⟨p, by rw [Function.update_self, hb, hc]⟩
    · exact hold hj
  · exact hold hj

omit [DecidableEq ι] in
/-- The `PMap` and the presence of a chunk do not depend on its mutex. -/
theorem pm_mutex (b : Bool) (c : ℕ) (owner : Option ι) (c' : ℕ) :
    ((if b then Function.update s.chunks c { s.chunks c with defragMutex := owner } else s.chunks)
      c').pm = (s.chunks c').pm
    ∧ ((if b then Function.update s.chunks c { s.chunks c with defragMutex := owner } else s.chunks)
      c').present = (s.chunks c').present := by
  split
  · rw [Function.update_apply]
    split
    · next hc => exact ⟨hc ▸ rfl, hc ▸ rfl⟩
    · exact ⟨rfl, rfl⟩
  · exact ⟨rfl, rfl⟩

theorem Live.callback (h : s.Live) {i : ι} {b : Bool} {c p : ℕ} (hi : s.iters i = .idle)
    (hp : (s.chunks c).pm = some p) (hfree : b = true → (s.chunks c).defragMutex = none) :
    (s.callback i b c p).Live := by
  refine ⟨h.toTidy.callback p hi, fun c' hc' => ?_, fun j b' c' q hj => ?_, fun j c' q hj => ?_⟩
    <;> dsimp only [Lifetimes.callback] at *
  · exact (pm_mutex b c (some i) c').2.trans (h.due c' hc')
  · refine (pm_mutex b c (some i) c').1.trans ?_
    rw [Function.update_apply] at hj
    split at hj
    · cases hj
      exact hp
    · exact h.calling j b' c' q hj
  · rw [Function.update_apply] at hj
    split at hj
    · next hji =>
      cases hj
      rw [if_pos rfl, Function.update_self, hji]
    · have hown := h.owned j c' q hj
      split
      · next hb =>
        -- the chunk whose mutex is locked had it free
        rw [Function.update_of_ne, hown]
        rintro rfl
        cases hown.symm.trans (hfree hb)
      · exact hown

theorem Live.ended (h : s.Live) {i : ι} {b : Bool} {c p : ℕ} (hi : s.iters i = .calling b c p) :
    (s.ended i b c).Live := by
  refine ⟨h.toTidy.ended hi, fun c' hc' => ?_, fun j b' c' q hj => ?_, fun j c' q hj => ?_⟩
    <;> dsimp only [Lifetimes.ended] at *
  · exact (pm_mutex b c none c').2.trans (h.due c' hc')
  · refine (pm_mutex b c none c').1.trans ?_
    rw [Function.update_apply] at hj
    split at hj
    · cases hj
    · exact h.calling j b' c' q hj
  · rw [Function.update_apply] at hj
    split at hj
    · cases hj
    · next hji =>
      have hown := h.owned j c' q hj
      split
      · next hb =>
        -- the mutex had one owner, and that has ended
        rw [Function.update_of_ne, hown]
        rintro rfl
        exact hji (Option.some.inj (hown.symm.trans (h.owned i c' p (hb ▸ hi))))
      · exact hown

omit [DecidableEq ι] in
/-- A `defragOp` goes on its way, or a new one is of a chunk that is present. -/
theorem Live.move (h : s.Live) {sending queue : List ℕ} {taken : Option ℕ}
    (hdue : ∀ c, c ∈ sending ∨ c ∈ queue ∨ taken = some c → (s.chunks c).present = true) :
    ({ s with sending, queue, taken } : Lifetimes ι).Live :=
  ⟨⟨h.sound, h.locked, h.finite⟩, hdue, h.calling, h.owned⟩

omit [DecidableEq ι] in
/-- A `Delete` of a chunk that is present will send a `defragOp`. -/
theorem Live.cons_sending (h : s.Live) {c : ℕ} (hpres : (s.chunks c).present = true) :
    ({ s with sending := c :: s.sending } : Lifetimes ι).Live := by
  refine h.move fun c' hc' => ?_
  rcases hc' with hc' | hc'
  · rcases List.mem_cons.mp hc' with rfl | hc'
    · exact hpres
    · exact h.due c' (Or.inl hc')
  · exact h.due c' (Or.inr hc')

omit [DecidableEq ι] in
/-- A `defragOp` is sent. -/
theorem Live.send (h : s.Live) {c : ℕ} (hc : c ∈ s.sending) :
    ({ s with sending := s.sending.erase c, queue := s.queue ++ [c] } : Lifetimes ι).Live := by
  refine h.move fun c' hc' => ?_
  rcases hc' with hc' | hc' | hc'
  · exact h.due c' (Or.inl (List.mem_of_mem_erase hc'))
  · rcases List.mem_append.mp hc' with hc' | hc'
    · exact h.due c' (Or.inr (Or.inl hc'))
    · exact h.due c' (Or.inl (List.mem_singleton.mp hc' ▸ hc))
  · exact h.due c' (Or.inr (Or.inr hc'))

omit [DecidableEq ι] in
/-- The defragmenter takes a `defragOp`. -/
theorem Live.take (h : s.Live) {c : ℕ} {queue : List ℕ} (hqueue : s.queue = c :: queue) :
    ({ s with queue, taken := some c } : Lifetimes ι).Live := by
  refine h.move fun c' hc' => ?_
  rcases hc' with hc' | hc' | hc'
  · exact h.due c' (Or.inl hc')
  · exact h.due c' (Or.inr (Or.inl (hqueue ▸ List.mem_cons_of_mem _ hc')))
  · cases hc'
    exact h.due c (Or.inr (Or.inl (hqueue ▸ List.mem_cons_self)))

omit [DecidableEq ι] in
/-- With the `defragMutex` free, an iteration in a callback is an `Iterate`. -/
theorem Live.not_calling (h : s.Live) {c : ℕ} (hfree : (s.chunks c).defragMutex = none)
    (hiterate : ∀ i p, s.iters i ≠ .calling false c p) (i : ι) (b : Bool) (p : ℕ) :
    s.iters i ≠ .calling b c p := fun hi => by
  cases b with
  | false => exact hiterate i p hi
  | true =>
    rw [h.owned i c p hi] at hfree
    cases hfree

omit [DecidableEq ι] in
/-- The defragmenter replaces the `PMap` of a chunk that no iteration is on. -/
theorem Live.defrag (h : s.Live) {c : ℕ} (hc : s.taken = some c)
    (hnone : ∀ i b q, s.iters i ≠ .calling b c q) : ∃ k, (s.chunks c).defrag = .ok k
      ∧ ({ s.setChunk c k with taken := none } : Lifetimes ι).Live := by
  have hpres := h.due c (Or.inr (Or.inr hc))
  obtain ⟨p, hp⟩ := (h.sound c).exists_pm hpres
  obtain ⟨k, hk, hsound, -, hpres', hmutex⟩ := (h.sound c).defrag_eq hp
  have hlive : (s.setChunk c k).Live := h.setChunk hsound hmutex (fun _ => hpres'.trans hpres)
    fun i b q hi => (hnone i b q hi).elim
  refine ⟨k, hk, hlive.move fun c' hc' => hlive.due c' ?_⟩
  exact hc'.imp_right fun hc' => hc'.imp_right nofun

omit [DecidableEq ι] in
theorem Live.chunkSetPresent (h : s.Live) (c : ℕ) :
    (s.setChunk c (s.chunks c).chunkSetPresent).Live := by
  refine h.setChunk (h.sound c).chunkSetPresent ChunkLife.defragMutex_chunkSetPresent
    (fun _ => ChunkLife.present_chunkSetPresent) fun i b p hi => ?_
  have hp := h.calling i b c p hi
  have hpres := (h.sound c).present_iff.mpr (hp ▸ Option.some_ne_none p)
  rw [ChunkLife.chunkSetPresent, if_pos hpres]
  exact hp

omit [DecidableEq ι] in
/-- A chunk is dropped that nothing outlives. -/
theorem Live.chunkSetNoPresent (h : s.Live) {c : ℕ}
    (halone : (s.chunks c).present = true →
      ¬ s.Due c ∧ ∀ i b p, s.iters i ≠ .calling b c p) :
    ∃ k, (s.chunks c).chunkSetNoPresent = .ok k ∧ (s.setChunk c k).Live := by
  by_cases hpres : (s.chunks c).present = true
  · obtain ⟨hdue, hnone⟩ := halone hpres
    obtain ⟨p, hp⟩ := (h.sound c).exists_pm hpres
    obtain ⟨k, hk, hsound, -, -, hmutex⟩ := (h.sound c).chunkSetNoPresent_eq hp
    exact ⟨k, hk, h.setChunk hsound hmutex (fun hc => (hdue hc).elim)
      fun i b q hi => (hnone i b q hi).elim⟩
  · refine ⟨s.chunks c, ?_, h.setChunk (h.sound c) rfl (h.due c) fun i b p => h.calling i b c p⟩
    rw [ChunkLife.chunkSetNoPresent, if_neg hpres]
    rfl

/-- **Careful steps return**, and keep the invariant. -/
theorem Live.step {ev : Event ι} {r : Call (Lifetimes ι)} (h : s.Live)
    (hcareful : Careful (.ok s) ev) (hs : s.next ev = some r) : ∃ s', r = .ok s' ∧ s'.Live := by
  replace hcareful := hcareful s rfl
  cases ev with
  | delete c queues =>
    cases hs
    by_cases hpres : (s.chunks c).present = true
    · obtain ⟨p, hp⟩ := (h.sound c).exists_pm hpres
      rw [if_pos hpres, ChunkLife.deref_eq hp, Call.ok_bind, (h.sound c).access_eq hp, Call.ok_bind]
      refine ⟨_, rfl, ?_⟩
      split
      · exact h.cons_sending hpres
      · exact h
    · rw [if_neg hpres]
      exact ⟨s, rfl, h⟩
  | send c =>
    obtain ⟨hc, hs⟩ := Option.ite_none_right_eq_some.mp hs
    cases hs
    exact ⟨_, rfl, h.send hc.1⟩
  | take =>
    rw [next] at hs
    split at hs
    · next c queue htaken hqueue =>
      cases hs
      have hc : s.Due c := Or.inr (Or.inl (hqueue ▸ List.mem_cons_self))
      obtain ⟨p, hp⟩ := (h.sound c).exists_pm (h.due c hc)
      rw [ChunkLife.deref_eq hp, Call.ok_bind, (h.sound c).access_eq hp, Call.ok_bind]
      exact ⟨_, rfl, h.take hqueue⟩
    · cases hs
  | defrag =>
    rw [next] at hs
    split at hs
    · next c htaken =>
      obtain ⟨hfree, hs⟩ := Option.ite_none_right_eq_some.mp hs
      cases hs
      obtain ⟨k, hk, hlive⟩ := h.defrag htaken (h.not_calling hfree (hcareful c htaken))
      rw [hk]
      exact ⟨_, rfl, hlive⟩
    · cases hs
  | start i b c more =>
    rw [next] at hs
    split at hs
    · cases hs
    · next hidle =>
      split at hs
      · next hpres =>
        split at hs
        · cases hs
        · next hfree =>
          cases hs
          obtain ⟨p, hp⟩ := (h.sound c).exists_pm hpres
          rw [ChunkLife.deref_eq hp, Call.ok_bind, (h.sound c).access_eq hp, Call.ok_bind]
          refine ⟨_, rfl, ?_⟩
          split
          · exact h.callback (not_not.mp hidle) hp fun hb => not_not.mp fun hne => hfree ⟨hb, hne⟩
          · exact h
      · cases hs
        exact ⟨s, rfl, h⟩
  | turn i goOn more =>
    rw [next] at hs
    split at hs
    · cases hs
    · next b c p hi =>
      cases hs
      split
      · rw [(h.sound c).access_eq (h.calling i b c p hi), Call.ok_bind]
        refine ⟨_, rfl, ?_⟩
        split
        · exact h
        · exact h.ended hi
      · exact ⟨_, rfl, h.ended hi⟩
  | chunkSetPresent c =>
    cases hs
    exact ⟨_, rfl, h.chunkSetPresent c⟩
  | chunkSetNoPresent c =>
    cases hs
    obtain ⟨k, hk, hlive⟩ := h.chunkSetNoPresent hcareful
    rw [hk]
    exact ⟨_, rfl, hlive⟩

/-! ## Careless steps -/

/-- An iteration in a callback, on a `PMap` that has been closed. -/
theorem leadsTo_of_closed {i : ι} {b : Bool} {c p : ℕ} (hi : s.iters i = .calling b c p)
    (hclosed : (s.chunks c).closed p = true) : LeadsTo Step Careful Faulted (.ok s) := by
  have hstep : Step (.ok s) (.turn i true true) (.error .bounds) := by
    refine ⟨s, rfl, ?_⟩
    rw [next, hi]
    dsimp only
    rw [if_pos rfl, ChunkLife.access_closed hclosed]
    rfl
  exact .cons (a := .turn i true true) (fun _ _ => trivial) hstep (.now ⟨_, rfl⟩)

/-- Nothing but the iterations and the mutexes differs. -/
structure SameOps (s s' : Lifetimes ι) : Prop where
  sending : s'.sending = s.sending
  queue : s'.queue = s.queue
  taken : s'.taken = s.taken
  pm : ∀ c, (s'.chunks c).pm = (s.chunks c).pm

/-- **Iterations can end**, by callbacks that return `false`. -/
theorem Tidy.exists_quiet (n : ℕ) : ∀ {s : Lifetimes ι} (h : s.Tidy),
    h.finite.toFinset.card = n → ∃ evs s', Run (Guarded Step Careful) (.ok s) evs (.ok s')
      ∧ s'.Tidy ∧ (∀ i, s'.iters i = .idle) ∧ SameOps s s' := by
  induction n with
  | zero =>
    intro s h hcard
    refine ⟨[], s, .refl _, h, fun i => ?_, ⟨rfl, rfl, rfl, fun _ => rfl⟩⟩
    by_contra hi
    have hmem : i ∈ h.finite.toFinset := h.finite.mem_toFinset.mpr hi
    rw [Finset.card_eq_zero.mp hcard] at hmem
    cases hmem
  | succ n ih =>
    intro s h hcard
    have hpos : 0 < h.finite.toFinset.card := hcard.symm ▸ Nat.succ_pos n
    obtain ⟨i, hmem⟩ := Finset.card_pos.mp hpos
    have hactive := h.finite.mem_toFinset.mp hmem
    cases hi : s.iters i with
    | idle => exact (hactive hi).elim
    | calling b c p =>
      have hstep : Step (.ok s) (.turn i false false) (.ok (s.ended i b c)) := by
        refine ⟨s, rfl, ?_⟩
        rw [next, hi]
        rfl
      have htidy := h.ended hi
      have herase : htidy.finite.toFinset = h.finite.toFinset.erase i := by
        ext j
        rw [Set.Finite.mem_toFinset, Finset.mem_erase, Set.Finite.mem_toFinset, Set.mem_ofPred_eq,
          Set.mem_ofPred_eq]
        dsimp only [Lifetimes.ended]
        rw [Function.update_apply]
        split
        · next hj => simp [hj]
        · next hj => simp [hj]
      obtain ⟨evs, s', hrun, htidy', hidle, hsame⟩ := ih htidy (by
        rw [herase, Finset.card_erase_of_mem hmem, hcard, Nat.add_sub_cancel])
      refine ⟨_, s', .cons ⟨fun _ _ => trivial, hstep⟩ hrun, htidy', hidle, hsame.sending,
        hsame.queue, hsame.taken, fun c' => (hsame.pm c').trans (pm_mutex b c none c').1⟩

/-- The defragmenter takes a `defragOp` of a chunk that is not present. -/
theorem leadsTo_take {c : ℕ} {queue : List ℕ} (htaken : s.taken = none)
    (hqueue : s.queue = c :: queue) (hnil : (s.chunks c).pm = none) :
    LeadsTo Step Careful Faulted (.ok s) := by
  have hstep : Step (.ok s) .take (.error .panic) := by
    refine ⟨s, rfl, ?_⟩
    rw [next, htaken, hqueue]
    dsimp only
    rw [ChunkLife.deref, hnil]
    rfl
  exact .cons (a := .take) (fun _ _ => trivial) hstep (.now ⟨_, rfl⟩)

/-! ### The defragmenter comes to every `defragOp` -/

/-- A `defragOp` is due of a chunk that is not present, and no iteration is in its way. -/
structure Doomed (c : ℕ) (s : Lifetimes ι) : Prop extends s.Tidy where
  idle : ∀ i, s.iters i = .idle
  nil : (s.chunks c).pm = none
  due : s.Due c

/-- What the defragmenter has to do: to take what is in the channel, and to do what it takes. -/
def backlog (s : Lifetimes ι) : ℕ := 2 * s.queue.length + if s.taken = none then 0 else 1

namespace Doomed

variable {c d : ℕ}

omit [DecidableEq ι] in
theorem free (h : s.Doomed c) (d : ℕ) : (s.chunks d).defragMutex = none := by
  by_contra hne
  obtain ⟨i, hi⟩ := Option.ne_none_iff_exists'.mp hne
  obtain ⟨p, hp⟩ := h.locked d i hi
  cases (h.idle i).symm.trans hp

/-- It does what it has taken. -/
theorem defrag (h : s.Doomed c) (htaken : s.taken = some d) :
    LeadsTo Step Careful Faulted (.ok s)
    ∨ ∃ s', Guarded Step Careful (.ok s) .defrag (.ok s') ∧ s'.Doomed c
      ∧ s'.backlog < s.backlog := by
  have hcareful : Careful (.ok s) .defrag := fun s' hs' => by
    cases hs'
    exact fun _ _ i p hi => by cases (h.idle i).symm.trans hi
  cases hp : (s.chunks d).pm with
  | none =>
    have hstep : Step (.ok s) .defrag (.error .panic) := by
      refine ⟨s, rfl, ?_⟩
      rw [next, htaken]
      dsimp only
      rw [if_pos (h.free d), ChunkLife.defrag, ChunkLife.deref, hp]
      rfl
    exact Or.inl (.cons hcareful hstep (.now ⟨_, rfl⟩))
  | some p =>
    have hcd : c ≠ d := fun heq => by cases h.nil.symm.trans (heq ▸ hp)
    obtain ⟨k, hk, hsound, -, -, hmutex⟩ := (h.sound d).defrag_eq hp
    have hstep : Step (.ok s) .defrag (.ok { s.setChunk d k with taken := none }) := by
      refine ⟨s, rfl, ?_⟩
      rw [next, htaken]
      dsimp only
      rw [if_pos (h.free d), hk]
      rfl
    have htidy := h.setChunk hsound hmutex
    refine Or.inr ⟨_, ⟨hcareful, hstep⟩,
      ⟨⟨htidy.sound, htidy.locked, htidy.finite⟩, h.idle, ?_, ?_⟩, ?_⟩
    · exact (congrArg ChunkLife.pm (setChunk_chunks s d k c)).trans
        (by rw [if_neg hcd]; exact h.nil)
    · exact h.due.imp_right fun hdue => hdue.imp_right fun hc =>
        (hcd (Option.some.inj (hc.symm.trans htaken))).elim
    · rw [backlog, backlog, htaken]
      exact Nat.lt_succ_self _

/-- A `defragOp` that is due and neither taken nor in the channel is sent. -/
theorem send (h : s.Doomed c) (htaken : s.taken = none) (hqueue : s.queue = []) :
    LeadsTo Step Careful Faulted (.ok s) := by
  have hsending : c ∈ s.sending := by
    rcases h.due with hc | hc | hc
    · exact hc
    · rw [hqueue] at hc
      cases hc
    · cases htaken.symm.trans hc
  have hstep : Step (.ok s) (.send c)
      (.ok { s with sending := s.sending.erase c, queue := s.queue ++ [c] }) := by
    refine ⟨s, rfl, ?_⟩
    rw [next, if_pos ⟨hsending, by rw [hqueue]; decide⟩]
  refine .cons (a := .send c) (fun _ _ => trivial) hstep ?_
  exact leadsTo_take htaken (show s.queue ++ [c] = [c] by rw [hqueue]; rfl) h.nil

/-- It takes the next one. -/
theorem take {queue : List ℕ} (h : s.Doomed c) (htaken : s.taken = none)
    (hqueue : s.queue = d :: queue) :
    LeadsTo Step Careful Faulted (.ok s)
    ∨ ∃ s', Guarded Step Careful (.ok s) .take (.ok s') ∧ s'.Doomed c
      ∧ s'.backlog < s.backlog := by
  cases hp : (s.chunks d).pm with
  | none => exact Or.inl (leadsTo_take htaken hqueue hp)
  | some p =>
    have hstep : Step (.ok s) .take (.ok { s with queue, taken := some d }) := by
      refine ⟨s, rfl, ?_⟩
      rw [next, htaken, hqueue]
      dsimp only
      rw [ChunkLife.deref_eq hp, Call.ok_bind, (h.sound d).access_eq hp]
      rfl
    refine Or.inr ⟨_, ⟨fun _ _ => trivial, hstep⟩,
      ⟨⟨h.sound, h.locked, h.finite⟩, h.idle, h.nil, ?_⟩, ?_⟩
    · rcases h.due with hc | hc | hc
      · exact Or.inl hc
      · rw [hqueue] at hc
        rcases List.mem_cons.mp hc with rfl | hc
        · exact Or.inr (Or.inr rfl)
        · exact Or.inr (Or.inl hc)
      · cases htaken.symm.trans hc
    · rw [backlog, backlog, htaken, hqueue, List.length_cons, if_pos rfl]
      dsimp only
      rw [if_neg nofun]
      omega

/-- **The defragmenter comes to every `defragOp`.** -/
theorem leadsTo (n : ℕ) : ∀ {s : Lifetimes ι}, s.Doomed c → s.backlog = n →
    LeadsTo Step Careful Faulted (.ok s) := by
  induction n using Nat.strong_induction_on with
  | _ n ih =>
    rintro s h rfl
    have hstep : LeadsTo Step Careful Faulted (.ok s) ∨ ∃ ev s',
        Guarded Step Careful (.ok s) ev (.ok s') ∧ s'.Doomed c ∧ s'.backlog < s.backlog := by
      cases htaken : s.taken with
      | some d => exact (h.defrag htaken).imp_right fun hs => ⟨_, hs⟩
      | none =>
        cases hqueue : s.queue with
        | nil => exact Or.inl (h.send htaken hqueue)
        | cons d queue => exact (h.take htaken hqueue).imp_right fun hs => ⟨_, hs⟩
    rcases hstep with hfault | ⟨ev, s', ⟨hcareful, hs⟩, h', hlt⟩
    · exact hfault
    · exact .cons hcareful hs (ih _ hlt h' rfl)

end Doomed

/-- **A careless step** leads to a fault. -/
theorem Live.leadsTo {ev : Event ι} {r : Call (Lifetimes ι)} (h : s.Live)
    (hcareful : ¬ Careful (.ok s) ev) (hs : s.next ev = some r) :
    LeadsTo Step Careful Faulted r := by
  cases ev with
  | defrag =>
    obtain ⟨c, htaken, i, p, hi⟩ : ∃ c, s.taken = some c
        ∧ ∃ i p, s.iters i = .calling false c p := by
      by_contra hno
      push Not at hno
      refine hcareful fun s' hs' => ?_
      cases hs'
      exact hno
    rw [next, htaken] at hs
    obtain ⟨-, hs⟩ := Option.ite_none_right_eq_some.mp hs
    cases hs
    obtain ⟨k, hk, -, hclosed, -⟩ := (h.sound c).defrag_eq (h.calling i false c p hi)
    rw [hk]
    refine leadsTo_of_closed (s := { s.setChunk c k with taken := none }) hi ?_
    dsimp only [Lifetimes.setChunk]
    rwa [Function.update_self]
  | chunkSetNoPresent c =>
    cases hs
    have hpres : (s.chunks c).present = true := by
      by_contra hno
      refine hcareful fun s' hs' hpres => ?_
      cases hs'
      exact (hno hpres).elim
    obtain ⟨p, hp⟩ := (h.sound c).exists_pm hpres
    obtain ⟨k, hk, hsound, hclosed, hnil, hmutex⟩ := (h.sound c).chunkSetNoPresent_eq hp
    have hself : (s.setChunk c k).chunks c = k := Function.update_self _ _ _
    rw [hk]
    by_cases hit : ∃ i b q, s.iters i = .calling b c q
    · obtain ⟨i, b, q, hi⟩ := hit
      obtain rfl := Option.some.inj (hp.symm.trans (h.calling i b c q hi))
      exact leadsTo_of_closed (s := s.setChunk c k) hi (hself.symm ▸ hclosed)
    · push Not at hit
      have hdue : s.Due c := by
        by_contra hno
        refine hcareful fun s' hs' _ => ?_
        cases hs'
        exact ⟨hno, hit⟩
      obtain ⟨evs, s', hrun, htidy, hidle, hsame⟩ :=
        (h.toTidy.setChunk hsound hmutex).exists_quiet _ rfl
      have hdoomed : s'.Doomed c := by
        refine ⟨htidy, hidle, ?_, ?_⟩
        · rw [hsame.pm, hself, hnil]
        · rwa [Due, hsame.sending, hsame.queue, hsame.taken]
      exact .after hrun (hdoomed.leadsTo _ rfl)
  | _ => exact absurd (fun _ _ => trivial) hcareful

/-- **No operation touches a released `PMap`**, as long as a chunk is dropped only while no
`defragOp` of it is due and no iteration of it is in a callback, and defragmented only while no
`Iterate` of it is; and each step that is careless in that can be followed by one that touches. -/
theorem no_released_touch_iff (ι : Type) [DecidableEq ι] :
    ExactGuard Step Careful Faulted (.ok (new ι)) := by
  refine .of_invariant (I := fun r => ∃ s, r = .ok s ∧ s.Live) ⟨_, rfl, live_new⟩ ?_ ?_ ?_
  · rintro r ev r' ⟨s, rfl, h⟩ hcareful ⟨s', hs', hs⟩
    cases hs'
    exact h.step hcareful hs
  · rintro r ⟨s, rfl, -⟩ ⟨e, he⟩
    cases he
  · rintro r ev r' ⟨s, rfl, h⟩ hcareful ⟨s', hs', hs⟩
    cases hs'
    exact h.leadsTo hcareful hs

/-- **Four ways to a released `PMap`**: a chunk dropped with a `defragOp` in the channel; one
dropped before the `Delete` has sent its `defragOp`; one defragmented while it is transferred; one
dropped while it is repaired. -/
theorem released_pmap_touched :
    (∃ r, Run Step (.ok (new Unit)) [.chunkSetPresent 0, .delete 0 true, .send 0,
      .chunkSetNoPresent 0, .take] r ∧ Faulted r)
    ∧ (∃ r, Run Step (.ok (new Unit)) [.chunkSetPresent 0, .delete 0 true, .chunkSetNoPresent 0,
      .send 0, .take] r ∧ Faulted r)
    ∧ (∃ r, Run Step (.ok (new Unit)) [.chunkSetPresent 0, .delete 0 true, .send 0, .take,
      .start () false 0 true, .defrag, .turn () true false] r ∧ Faulted r)
    ∧ ∃ r, Run Step (.ok (new Unit)) [.chunkSetPresent 0, .start () true 0 true,
      .chunkSetNoPresent 0, .turn () true false] r ∧ Faulted r := by
  refine ⟨?_, ?_, ?_, ?_⟩
  · exact ⟨_, .cons ⟨_, rfl, rfl⟩ (.cons ⟨_, rfl, rfl⟩ (.cons ⟨_, rfl, rfl⟩ (.cons ⟨_, rfl, rfl⟩
      (.cons ⟨_, rfl, rfl⟩ (.refl _))))), .panic, rfl⟩
  · exact ⟨_, .cons ⟨_, rfl, rfl⟩ (.cons ⟨_, rfl, rfl⟩ (.cons ⟨_, rfl, rfl⟩ (.cons ⟨_, rfl, rfl⟩
      (.cons ⟨_, rfl, rfl⟩ (.refl _))))), .panic, rfl⟩
  · exact ⟨_, .cons ⟨_, rfl, rfl⟩ (.cons ⟨_, rfl, rfl⟩ (.cons ⟨_, rfl, rfl⟩ (.cons ⟨_, rfl, rfl⟩
      (.cons ⟨_, rfl, rfl⟩ (.cons ⟨_, rfl, rfl⟩ (.cons ⟨_, rfl, rfl⟩ (.refl _))))))), .bounds, rfl⟩
  · exact ⟨_, .cons ⟨_, rfl, rfl⟩ (.cons ⟨_, rfl, rfl⟩ (.cons ⟨_, rfl, rfl⟩ (.cons ⟨_, rfl, rfl⟩
      (.refl _)))), .bounds, rfl⟩

end Lifetimes

end Treeless
