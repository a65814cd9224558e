import Treeless.Core.Core
import Treeless.Machinery.Run
import Mathlib.Data.Fintype.Card

/-!
# Dist/Release — giving up the copy of a chunk

A server with more work than its share gives up a chunk that has more holders than the redundancy
asks for.  Its releaser checks that the chunk is not protected here, asks every other holder to
protect it, and removes it when all have said yes:

    check ──► list ──► ask / answer (each holder in turn) ──► remove ──► forget

The handler of a request looks at the number of holders it knows, and then protects the chunk.  All
of these are steps of their own, on servers that know of each other only what they were told.
-/

namespace Treeless

namespace Release

/-- Where the releaser of a server stands. -/
inductive Phase (ι : Type)
  | idle
  /-- The chunk was not protected. -/
  | checked
  /-- All the holders but those of `rest` have protected the chunk. -/
  | asking (rest : List ι)
  /-- The request `tid` to `holder` is not answered yet. -/
  | waiting (tid : ℕ) (holder : ι) (rest : List ι)
  /-- The chunk is removed. -/
  | removed
  deriving DecidableEq, Repr

/-- A server, as far as the chunk is concerned. -/
structure Server (ι : Type) extends Flags where
  /-- The holders it knows. -/
  holders : List ι
  /-- How many times the chunk is in the channel of the releaser. -/
  queued : ℕ
  phase : Phase ι

structure State (ι : Type) where
  server : ι → Server ι
  /-- Requests for protection, by transaction and holder. -/
  requests : List (ℕ × ι)
  /-- Requests whose handler has looked at the number of holders. -/
  allowed : List (ℕ × ι)
  replies : List (ℕ × ι × Bool)
  nextTid : ℕ

inductive Event (ι : Type)
  /-- The rebalancer puts the chunk into the channel. -/
  | release (i : ι)
  | check (i : ι)
  | list (i : ι)
  | ask (i : ι)
  | allow (tid : ℕ) (j : ι)
  | protect (tid : ℕ) (j : ι)
  | answer (i : ι) (ok : Bool)
  /-- There is no connection, or the request has timed out. -/
  | fail (i : ι)
  | remove (i : ι)
  | forget (i : ι)
  /-- A heartbeat of `j` reaches `i`. -/
  | learn (i j : ι)
  deriving DecidableEq, Repr

variable {ι : Type} [DecidableEq ι]

namespace State

/-- Replaces a server. -/
def put (s : State ι) (i : ι) (v : Server ι) : State ι :=
  { s with server := Function.update s.server i v }

variable (redundancy : ℕ) (s : State ι)

/-- The releaser takes the chunk from the channel, and looks whether it is protected. -/
def check (i : ι) : Option (State ι) :=
  let v := s.server i
  match v.phase, v.queued with
  | .idle, n + 1 =>
    if v.protected then some (s.put i { v with queued := n })
    else some (s.put i { v with queued := n, phase := .checked })
  | _, _ => none

/-- The array of holders has eight places. -/
def list (i : ι) : Option (State ι) :=
  let v := s.server i
  match v.phase with
  | .checked =>
    if v.holders.length ≤ 8 then
      some (s.put i { v with phase := .asking (v.holders.filter fun j => decide (j ≠ i)) })
    else none
  | _ => none

/-- The releaser sends the next request. -/
def ask (i : ι) : Option (State ι) :=
  let v := s.server i
  match v.phase with
  | .asking (j :: rest) =>
    some { s.put i { v with phase := .waiting s.nextTid j rest } with
      requests := (s.nextTid, j) :: s.requests, nextTid := s.nextTid + 1 }
  | _ => none

/-- The handler compares the number of holders with the redundancy. -/
def allow (tid : ℕ) (j : ι) : Option (State ι) :=
  if (tid, j) ∈ s.requests then
    let s := { s with requests := s.requests.erase (tid, j) }
    if redundancy < (s.server j).holders.length then
      some { s with allowed := (tid, j) :: s.allowed }
    else some { s with replies := (tid, j, false) :: s.replies }
  else none

/-- The handler protects the chunk. -/
def protect (tid : ℕ) (j : ι) : Option (State ι) :=
  if (tid, j) ∈ s.allowed then
    let s := { s with allowed := s.allowed.erase (tid, j) }
    match (s.server j).toFlags.setProtected with
    | some flags =>
      some { s.put j { s.server j with toFlags := flags } with
        replies := (tid, j, true) :: s.replies }
    | none => some { s with replies := (tid, j, false) :: s.replies }
  else none

/-- The reply to the request of the releaser arrives. -/
def answer (i : ι) (ok : Bool) : Option (State ι) :=
  let v := s.server i
  match v.phase with
  | .waiting tid j rest =>
    if (tid, j, ok) ∈ s.replies then
      some (s.put i { v with phase := if ok then .asking rest else .idle })
    else none
  | _ => none

/-- The releaser gives up. -/
def fail (i : ι) : Option (State ι) :=
  let v := s.server i
  match v.phase with
  | .asking (_ :: _) | .waiting _ _ _ => some (s.put i { v with phase := .idle })
  | _ => none

/-- The releaser removes the chunk when no holder is left to ask. -/
def remove (i : ι) : Option (State ι) :=
  let v := s.server i
  match v.phase with
  | .asking [] => some (s.put i { v with toFlags := v.setNoPresent, phase := .removed })
  | _ => none

/-- The releaser tells its own server group. -/
def forget (i : ι) : Option (State ι) :=
  let v := s.server i
  match v.phase with
  | .removed => some (s.put i { v with holders := v.holders.erase i, phase := .idle })
  | _ => none

/-- A heartbeat without the chunk takes its server from the holders. -/
def learn (i j : ι) : Option (State ι) :=
  if (s.server j).present then none
  else some (s.put i { s.server i with holders := (s.server i).holders.erase j })

/-- The rebalancer releases a chunk with more holders than the redundancy. -/
def release (i : ι) : Option (State ι) :=
  let v := s.server i
  if v.present ∧ redundancy < v.holders.length then some (s.put i { v with queued := v.queued + 1 })
  else none

/-- The state after an event, if it can happen. -/
def step : Event ι → Option (State ι)
  | .release i => s.release redundancy i
  | .check i => s.check i
  | .list i => s.list i
  | .ask i => s.ask i
  | .allow tid j => s.allow redundancy tid j
  | .protect tid j => s.protect tid j
  | .answer i ok => s.answer i ok
  | .fail i => s.fail i
  | .remove i => s.remove i
  | .forget i => s.forget i
  | .learn i j => s.learn i j

/-- All the servers hold the chunk, and know the holders `view`. -/
def start (view : ι → List ι) : State ι :=
  ⟨fun i => ⟨⟨true, false⟩, view i, 0, .idle⟩, [], [], [], 0⟩

/-- The number of servers on which the chunk is present. -/
def copies [Fintype ι] : ℕ := (Finset.univ.filter fun i => (s.server i).present = true).card

end State

/-! ## The flags of a core -/

section Core

variable (w : World) (cid : ℕ)

/-- **`remove` does to the flags what `ChunkSetNoPresent` does.** -/
theorem flags_chunkSetNoPresent : (w.chunkSetNoPresent cid).Returns fun w' =>
    w'.core.flags = Function.update w.core.flags cid
      ((w.core.flags cid).map Flags.setNoPresent) := by
  intro w' h
  obtain ⟨chunk, hchunk, h⟩ := Call.bind_eq_ok.mp h
  have hflags : w.core.flags cid = some chunk.toFlags := Core.view_of_chunk hchunk
  rw [hflags, Option.map_some]
  split at h
  · obtain ⟨pm, -, h⟩ := Call.bind_eq_ok.mp h
    cases h
    exact Core.view_setChunk _ hchunk { chunk with toFlags := chunk.setNoPresent, pm := none }
  · next hnot =>
    cases h
    rw [Flags.setNoPresent, if_neg hnot, ← hflags, Function.update_eq_self]

/-- **`protect` does to the flags what `ChunkSetProtected` does.** -/
theorem flags_chunkSetProtected (c : Core) : (c.chunkSetProtected cid).Returns fun r =>
    ∃ f, c.flags cid = some f ∧ match f.setProtected with
      | none => r = (some .notPresent, c)
      | some f' => r.1 = none ∧ r.2.flags = Function.update c.flags cid (some f') := by
  intro r h
  obtain ⟨chunk, hchunk, h⟩ := Call.bind_eq_ok.mp h
  refine ⟨chunk.toFlags, Core.view_of_chunk hchunk, ?_⟩
  cases hf : chunk.toFlags.setProtected with
  | none =>
    rw [hf] at h
    exact (Except.ok.inj h).symm
  | some flags =>
    rw [hf] at h
    cases h
    exact ⟨rfl, Core.view_setChunk _ hchunk { chunk with toFlags := flags }⟩

end Core

/-! ## What a step keeps -/

/-- If the chunk is present, it is protected. -/
def Guarded (v : Server ι) : Prop := v.present = true → v.protected = true

/-- In this phase the protection of the holder is still to come. -/
def Phase.Awaits : Phase ι → ι → Prop
  | .asking rest, j => j ∈ rest
  | .waiting _ holder rest, j => j = holder ∨ j ∈ rest
  | _, _ => True

/-- **The invariant of the release.**  The holders a releaser has asked are guarded; when the chunk
has been removed from a server, all the others are. -/
structure Inv [Fintype ι] (redundancy : ℕ) (server : ι → Server ι)
    (replies : List (ℕ × ι × Bool)) : Prop where
  known : ∀ i j, (server j).present = true → j ∈ (server i).holders
  nodup : ∀ i, (server i).holders.Nodup
  busy : ∀ i, 0 < (server i).queued ∨ (server i).phase ≠ .idle → redundancy < Fintype.card ι
  replied : ∀ tid j, (tid, j, true) ∈ replies → Guarded (server j)
  asked : ∀ i j, j ≠ i → ¬ (server i).phase.Awaits j → Guarded (server j)
  gone : ∀ i, (server i).present = false → ∀ j, Guarded (server j)
  removed : ∀ i, (server i).phase = .removed → (server i).present = false

variable [Fintype ι] {redundancy : ℕ} {s s' : State ι} {replies : List (ℕ × ι × Bool)}
  {server : ι → Server ι} {i : ι} {v : Server ι}

/-- **A step of one server keeps the invariant**, if it does not bring the chunk back, keeps the
chunk guarded, and removes it only when the others are. -/
theorem Inv.put (h : Inv redundancy server replies)
    (hpresent : v.present = true → (server i).present = true)
    (hguarded : Guarded (server i) → Guarded v)
    (hgone : v.present = false → (server i).present = false ∨ ∀ j, j ≠ i → Guarded (server j))
    (hknown : ∀ j, (Function.update server i v j).present = true → j ∈ v.holders)
    (hnodup : v.holders.Nodup)
    (hbusy : 0 < v.queued ∨ v.phase ≠ .idle → redundancy < Fintype.card ι)
    (hasked : ∀ j, j ≠ i → ¬ v.phase.Awaits j → Guarded (server j))
    (hremoved : v.phase = .removed → v.present = false) :
    Inv redundancy (Function.update server i v) replies := by
  have hpres : ∀ j, (Function.update server i v j).present = true → (server j).present = true :=
    (Function.forall_update_iff server fun j w => w.present = true → (server j).present = true).mpr
      ⟨hpresent, fun _ _ => id⟩
  have hguard : ∀ j, Guarded (server j) → Guarded (Function.update server i v j) :=
    (Function.forall_update_iff server fun j w => Guarded (server j) → Guarded w).mpr
      ⟨hguarded, fun _ _ => id⟩
  refine ⟨?_, ?_, ?_, fun tid j hj => hguard j (h.replied tid j hj), ?_, ?_, ?_⟩
  · exact (Function.forall_update_iff server fun _ w => ∀ j,
      (Function.update server i v j).present = true → j ∈ w.holders).mpr
      ⟨hknown, fun k _ j hj => h.known k j (hpres j hj)⟩
  · exact (Function.forall_update_iff server fun _ w => w.holders.Nodup).mpr
      ⟨hnodup, fun k _ => h.nodup k⟩
  · exact (Function.forall_update_iff server fun _ w =>
      0 < w.queued ∨ w.phase ≠ .idle → redundancy < Fintype.card ι).mpr ⟨hbusy, fun k _ => h.busy k⟩
  · exact (Function.forall_update_iff server fun k w => ∀ j, j ≠ k → ¬ w.phase.Awaits j →
      Guarded (Function.update server i v j)).mpr
      ⟨fun j hj hnot => hguard j (hasked j hj hnot),
        fun k _ j hj hnot => hguard j (h.asked k j hj hnot)⟩
  · refine (Function.forall_update_iff server fun _ w => w.present = false → ∀ j,
      Guarded (Function.update server i v j)).mpr ⟨fun hv j => ?_, fun k _ hk j =>
        hguard j (h.gone k hk j)⟩
    rcases hgone hv with hold | hothers
    · exact hguard j (h.gone i hold j)
    · rcases eq_or_ne j i with rfl | hj
      · rw [Function.update_self]
        exact fun hp => nomatch hp.symm.trans hv
      · exact hguard j (hothers j hj)
  · exact (Function.forall_update_iff server fun _ w => w.phase = .removed → w.present = false).mpr
      ⟨hremoved, fun k _ => h.removed k⟩

omit [Fintype ι] in
theorem present_update (h : v.present = (server i).present) (k : ι) :
    (Function.update server i v k).present = (server k).present := by
  rcases eq_or_ne k i with rfl | hne
  · rw [Function.update_self, h]
  · rw [Function.update_of_ne hne]

/-- The invariant holds of new servers, and the chunk is present where it was. -/
abbrev Kept (redundancy : ℕ) (server server' : ι → Server ι) (replies : List (ℕ × ι × Bool)) :
    Prop :=
  Inv redundancy server' replies ∧ ∀ k, (server' k).present = (server k).present

/-- A server that keeps its flags, and knows the servers with the chunk. -/
theorem Inv.keepFlags (h : Inv redundancy server replies) (hflags : v.toFlags = (server i).toFlags)
    (hknown : ∀ j, (server j).present = true → j ∈ v.holders) (hnodup : v.holders.Nodup)
    (hbusy : 0 < v.queued ∨ v.phase ≠ .idle → redundancy < Fintype.card ι)
    (hasked : ∀ j, j ≠ i → ¬ v.phase.Awaits j → Guarded (server j))
    (hremoved : v.phase = .removed → (server i).present = false) :
    Kept redundancy server (Function.update server i v) replies := by
  have hpresent : v.present = (server i).present := congrArg Flags.present hflags
  refine ⟨h.put (fun hv => hpresent ▸ hv) ?_ (fun hv => Or.inl (hpresent ▸ hv)) (fun j hj => ?_)
    hnodup hbusy hasked fun hr => hpresent ▸ hremoved hr, present_update hpresent⟩
  · rw [Guarded, Guarded, hflags]
    exact id
  · rw [present_update hpresent] at hj
    exact hknown j hj

/-- A server that keeps its flags and its holders, and goes to another phase. -/
theorem Inv.phase (h : Inv redundancy server replies) (hflags : v.toFlags = (server i).toFlags)
    (hholders : v.holders = (server i).holders)
    (hbusy : 0 < v.queued ∨ v.phase ≠ .idle → redundancy < Fintype.card ι)
    (hasked : ∀ j, j ≠ i → ¬ v.phase.Awaits j → Guarded (server j)) (hphase : v.phase ≠ .removed) :
    Kept redundancy server (Function.update server i v) replies :=
  h.keepFlags hflags (hholders ▸ h.known i) (hholders ▸ h.nodup i) hbusy hasked
    fun hr => absurd hr hphase

/-- A server that takes one without the chunk from its holders. -/
theorem Inv.eraseHolder (h : Inv redundancy server replies) {j : ι}
    (hj : (server j).present = false) (hflags : v.toFlags = (server i).toFlags)
    (hholders : v.holders = (server i).holders.erase j)
    (hbusy : 0 < v.queued ∨ v.phase ≠ .idle → redundancy < Fintype.card ι)
    (hasked : ∀ j, j ≠ i → ¬ v.phase.Awaits j → Guarded (server j))
    (hremoved : v.phase = .removed → (server i).present = false) :
    Kept redundancy server (Function.update server i v) replies := by
  refine h.keepFlags hflags (fun k hk => ?_) (hholders ▸ (h.nodup i).erase j) hbusy hasked hremoved
  have hkj : k ≠ j := fun heq => nomatch (heq ▸ hk).symm.trans hj
  rw [hholders]
  exact (List.mem_erase_of_ne hkj).mpr (h.known i k hk)

omit [DecidableEq ι] in
/-- A reply that comes with a protection, or none. -/
theorem Inv.reply (h : Inv redundancy server replies) {tid : ℕ} {j : ι} {ok : Bool}
    (hok : ok = true → Guarded (server j)) : Inv redundancy server ((tid, j, ok) :: replies) := by
  refine ⟨h.known, h.nodup, h.busy, fun tid' j' hj' => ?_, h.asked, h.gone, h.removed⟩
  rcases List.mem_cons.mp hj' with heq | hmem
  · obtain ⟨-, rfl, hok'⟩ := by simpa only [Prod.mk.injEq] using heq
    exact hok hok'.symm
  · exact h.replied tid' j' hmem

/-! ## The events -/

theorem Inv.release (h : Inv redundancy s.server s.replies)
    (hstep : s.release redundancy i = some s') : Kept redundancy s.server s'.server s'.replies := by
  rw [State.release] at hstep
  split at hstep
  · next hguard =>
    cases hstep
    refine h.phase rfl rfl (fun _ => ?_) (h.asked i) fun hr => ?_
    · exact lt_of_lt_of_le hguard.2 (h.nodup i).length_le_card
    · exact nomatch hguard.1.symm.trans (h.removed i hr)
  · cases hstep

theorem Inv.check (h : Inv redundancy s.server s.replies) (hstep : s.check i = some s') :
    Kept redundancy s.server s'.server s'.replies := by
  rw [State.check] at hstep
  split at hstep
  · next n hphase hqueued =>
    have hbusy := h.busy i (Or.inl (hqueued ▸ Nat.succ_pos n))
    split at hstep
    · cases hstep
      exact h.phase rfl rfl (fun _ => hbusy) (h.asked i) (by rw [hphase]; exact nofun)
    · cases hstep
      exact h.phase rfl rfl (fun _ => hbusy) (fun _ _ hnot => absurd trivial hnot) nofun
  · cases hstep

theorem Inv.list (h : Inv redundancy s.server s.replies) (hstep : s.list i = some s') :
    Kept redundancy s.server s'.server s'.replies := by
  rw [State.list] at hstep
  split at hstep
  · next hphase =>
    split at hstep
    · cases hstep
      refine h.phase rfl rfl (fun _ => h.busy i (Or.inr (by rw [hphase]; exact nofun)))
        (fun j hj hnot hpresent => ?_) nofun
      -- a holder that is not on the list is not present
      exact absurd (List.mem_filter.mpr ⟨h.known i j hpresent, decide_eq_true hj⟩) hnot
    · cases hstep
  · cases hstep

theorem Inv.ask (h : Inv redundancy s.server s.replies) (hstep : s.ask i = some s') :
    Kept redundancy s.server s'.server s'.replies := by
  rw [State.ask] at hstep
  split at hstep
  · next j rest hphase =>
    cases hstep
    refine h.phase rfl rfl (fun _ => h.busy i (Or.inr (by rw [hphase]; exact nofun)))
      (fun k hk hnot => h.asked i k hk ?_) nofun
    rw [hphase]
    exact fun hmem => hnot (List.mem_cons.mp hmem)
  · cases hstep

theorem Inv.answer (h : Inv redundancy s.server s.replies) {ok : Bool}
    (hstep : s.answer i ok = some s') : Kept redundancy s.server s'.server s'.replies := by
  rw [State.answer] at hstep
  split at hstep
  · next tid j rest hphase =>
    split at hstep
    · next hmem =>
      cases hstep
      have hbusy := h.busy i (Or.inr (by rw [hphase]; exact nofun))
      cases ok with
      | false => exact h.phase rfl rfl (fun _ => hbusy) (fun _ _ hnot => absurd trivial hnot) nofun
      | true =>
        refine h.phase rfl rfl (fun _ => hbusy) (fun k hk hnot => ?_) nofun
        -- the holder that has answered is guarded, and so are those asked before
        rcases eq_or_ne k j with rfl | hne
        · exact h.replied tid k hmem
        · refine h.asked i k hk ?_
          rw [hphase]
          exact fun hor => hnot (hor.resolve_left hne)
    · cases hstep
  · cases hstep

theorem Inv.fail (h : Inv redundancy s.server s.replies) (hstep : s.fail i = some s') :
    Kept redundancy s.server s'.server s'.replies := by
  rw [State.fail] at hstep
  split at hstep
  · next hphase =>
    cases hstep
    exact h.phase rfl rfl (fun _ => h.busy i (Or.inr (by rw [hphase]; exact nofun)))
      (fun _ _ hnot => absurd trivial hnot) nofun
  · next hphase =>
    cases hstep
    exact h.phase rfl rfl (fun _ => h.busy i (Or.inr (by rw [hphase]; exact nofun)))
      (fun _ _ hnot => absurd trivial hnot) nofun
  · cases hstep

theorem Inv.allow (h : Inv redundancy s.server s.replies) {tid : ℕ} {j : ι}
    (hstep : s.allow redundancy tid j = some s') :
    Kept redundancy s.server s'.server s'.replies := by
  rw [State.allow] at hstep
  split at hstep
  · dsimp only at hstep
    split at hstep
    · cases hstep
      exact ⟨h, fun _ => rfl⟩
    · cases hstep
      exact ⟨h.reply nofun, fun _ => rfl⟩
  · cases hstep

theorem Inv.protect (h : Inv redundancy s.server s.replies) {tid : ℕ} {j : ι}
    (hstep : s.protect tid j = some s') : Kept redundancy s.server s'.server s'.replies := by
  rw [State.protect] at hstep
  split at hstep
  · dsimp only at hstep
    split at hstep
    · next flags hflags =>
      cases hstep
      rw [Flags.setProtected] at hflags
      split at hflags
      · cases hflags
        have hguard : Guarded { s.server j with «protected» := true } := fun _ => rfl
        have hpresent : ∀ k, (Function.update s.server j { s.server j with
          «protected» := true } k).present = (s.server k).present := present_update rfl
        have hput : Inv redundancy (Function.update s.server j { s.server j with
            «protected» := true }) s.replies :=
          h.put id (fun _ => hguard) Or.inl (fun k hk => h.known j k (hpresent k ▸ hk)) (h.nodup j)
            (h.busy j) (h.asked j) (h.removed j)
        refine ⟨hput.reply fun _ => ?_, hpresent⟩
        rw [Function.update_self]
        exact hguard
      · cases hflags
    · cases hstep
      exact ⟨h.reply nofun, fun _ => rfl⟩
  · cases hstep

/-- **A removal leaves the other holders guarded.** -/
theorem Inv.remove (h : Inv redundancy s.server s.replies) (hstep : s.remove i = some s') :
    Inv redundancy s'.server s'.replies ∧ (s.server i).phase = .asking []
      ∧ ∀ k, (s'.server k).present = if k = i then false else (s.server k).present := by
  rw [State.remove] at hstep
  split at hstep
  · next hphase =>
    cases hstep
    have hothers : ∀ j, j ≠ i → Guarded (s.server j) := fun j hj =>
      h.asked i j hj (by rw [hphase]; exact List.not_mem_nil)
    have habsent : (s.server i).setNoPresent.present = false := by
      rw [Flags.setNoPresent]
      split
      · rfl
      · next hnot => exact Bool.eq_false_iff.mpr hnot
    have hpresent : ∀ k, (Function.update s.server i { s.server i with
        toFlags := (s.server i).setNoPresent, phase := .removed } k).present
        = if k = i then false else (s.server k).present := fun k => by
      rcases eq_or_ne k i with rfl | hne
      · rw [Function.update_self, if_pos rfl]
        exact habsent
      · rw [Function.update_of_ne hne, if_neg hne]
    refine ⟨h.put (fun hv => nomatch hv.symm.trans habsent)
      (fun _ hv => nomatch hv.symm.trans habsent) (fun _ => Or.inr hothers) (fun j hj => ?_)
      (h.nodup i) (fun _ => h.busy i (Or.inr (by rw [hphase]; exact nofun)))
      (fun j hj _ => hothers j hj) fun _ => habsent, hphase, hpresent⟩
    rw [hpresent] at hj
    split at hj
    · cases hj
    · exact h.known i j hj
  · cases hstep

theorem Inv.forget (h : Inv redundancy s.server s.replies) (hstep : s.forget i = some s') :
    Kept redundancy s.server s'.server s'.replies := by
  rw [State.forget] at hstep
  split at hstep
  · next hphase =>
    cases hstep
    exact h.eraseHolder (h.removed i hphase) rfl rfl
      (fun _ => h.busy i (Or.inr (by rw [hphase]; exact nofun)))
      (fun _ _ hnot => absurd trivial hnot) nofun
  · cases hstep

theorem Inv.learn (h : Inv redundancy s.server s.replies) {j : ι} (hstep : s.learn i j = some s') :
    Kept redundancy s.server s'.server s'.replies := by
  rw [State.learn] at hstep
  split at hstep
  · cases hstep
  · next hj =>
    cases hstep
    exact h.eraseHolder (Bool.eq_false_iff.mpr hj) rfl rfl (h.busy i) (h.asked i) (h.removed i)

/-- **What a step does**: it keeps the invariant, and the chunk is present where it was, but for a
server that removes it. -/
theorem Inv.step (h : Inv redundancy s.server s.replies) {ev : Event ι}
    (hstep : s.step redundancy ev = some s') :
    Kept redundancy s.server s'.server s'.replies ∨ ∃ i, ev = .remove i := by
  cases ev with
  | release i => exact Or.inl (h.release hstep)
  | check i => exact Or.inl (h.check hstep)
  | list i => exact Or.inl (h.list hstep)
  | ask i => exact Or.inl (h.ask hstep)
  | allow tid j => exact Or.inl (h.allow hstep)
  | protect tid j => exact Or.inl (h.protect hstep)
  | answer i ok => exact Or.inl (h.answer hstep)
  | fail i => exact Or.inl (h.fail hstep)
  | remove i => exact Or.inr ⟨i, rfl⟩
  | forget i => exact Or.inl (h.forget hstep)
  | learn i j => exact Or.inl (h.learn hstep)

/-! ## The number of copies -/

omit [DecidableEq ι] in
theorem copies_eq (h : ∀ k, (s'.server k).present = (s.server k).present) :
    s'.copies = s.copies := by
  rw [State.copies, State.copies]
  simp only [h]

/-- A removal takes one copy. -/
theorem copies_remove (hi : (s.server i).present = true)
    (h : ∀ k, (s'.server k).present = if k = i then false else (s.server k).present) :
    s'.copies + 1 = s.copies := by
  have heq : (Finset.univ.filter fun k => (s'.server k).present = true)
      = (Finset.univ.filter fun k => (s.server k).present = true).erase i := by
    ext k
    rw [Finset.mem_filter, Finset.mem_erase, Finset.mem_filter, h]
    by_cases hk : k = i
    · simp [hk]
    · simp [hk]
  rw [State.copies, State.copies, heq]
  exact Finset.card_erase_add_one (Finset.mem_filter.mpr ⟨Finset.mem_univ i, hi⟩)

omit [DecidableEq ι] in
/-- **While a server with the chunk is not protected, no copy is gone.** -/
theorem Inv.copies_eq_card (h : Inv redundancy s.server s.replies)
    (hi : (s.server i).present = true) (hprot : (s.server i).protected = false) :
    s.copies = Fintype.card ι := by
  rw [State.copies, Finset.filter_true_of_mem fun k _ => ?_, Finset.card_univ]
  by_contra hk
  exact nomatch (h.gone k (Bool.eq_false_iff.mpr hk) i hi).symm.trans hprot

/-- The chunk is removed only where it is not protected. -/
def Careful (s : State ι) : Event ι → Prop
  | .remove i => (s.server i).present = true → (s.server i).protected = false
  | _ => True

instance (s : State ι) : ∀ ev, Decidable (Careful s ev)
  | .remove i => inferInstanceAs (Decidable ((s.server i).present = true →
      (s.server i).protected = false))
  | .release _ | .check _ | .list _ | .ask _ | .allow _ _ | .protect _ _ | .answer _ _ | .fail _
  | .forget _ | .learn _ _ => inferInstanceAs (Decidable True)

/-- A careful step. -/
def CarefulStep (redundancy : ℕ) (s : State ι) (ev : Event ι) (s' : State ι) : Prop :=
  s.step redundancy ev = some s' ∧ Careful s ev

/-- **A careful removal leaves enough copies**: it is the first. -/
theorem Inv.le_copies_remove (h : Inv redundancy s.server s.replies) (hle : redundancy ≤ s.copies)
    (hstep : s.step redundancy (.remove i) = some s') (hcareful : Careful s (.remove i)) :
    redundancy ≤ s'.copies := by
  obtain ⟨-, hphase, hpresent⟩ := h.remove hstep
  cases hi : (s.server i).present with
  | false =>
    rwa [copies_eq fun k => ?_]
    rw [hpresent]
    split
    · next hk => rw [hk, hi]
    · rfl
  | true =>
    have hone := copies_remove hi hpresent
    have hcard := h.copies_eq_card hi (hcareful hi)
    have hbusy := h.busy i (Or.inr (by rw [hphase]; exact nofun))
    omega

theorem CarefulStep.inv {ev : Event ι} (hstep : CarefulStep redundancy s ev s')
    (h : Inv redundancy s.server s.replies ∧ redundancy ≤ s.copies) :
    Inv redundancy s'.server s'.replies ∧ redundancy ≤ s'.copies := by
  rcases h.1.step hstep.1 with ⟨hinv, hpresent⟩ | ⟨i, rfl⟩
  · exact ⟨hinv, copies_eq hpresent ▸ h.2⟩
  · exact ⟨(h.1.remove hstep.1).1, h.1.le_copies_remove h.2 hstep.1 hstep.2⟩

/-- Every server knows every server, once. -/
def Accurate (view : ι → List ι) : Prop := ∀ i, (view i).Nodup ∧ ∀ j, j ∈ view i

instance (view : ι → List ι) : Decidable (Accurate view) :=
  inferInstanceAs (Decidable (∀ i, (view i).Nodup ∧ ∀ j, j ∈ view i))

omit [DecidableEq ι] in
theorem Accurate.length_eq {view : ι → List ι} (h : Accurate view) (i : ι) :
    (view i).length = Fintype.card ι := by
  classical
  rw [← List.toFinset_card_of_nodup (h i).1, Finset.eq_univ_iff_forall.mpr fun j =>
    List.mem_toFinset.mpr ((h i).2 j), Finset.card_univ]

omit [DecidableEq ι] in
theorem inv_start {view : ι → List ι} (hview : Accurate view) (redundancy : ℕ) :
    Inv redundancy (State.start view).server (State.start view).replies := by
  refine ⟨fun i j _ => (hview i).2 j, fun i => (hview i).1, fun i hi => ?_,
    fun _ _ h => (nomatch h), fun i j _ hnot => absurd trivial hnot,
    fun i hi => (nomatch hi), fun i hi => (nomatch hi)⟩
  rcases hi with hq | hp
  · exact absurd hq (lt_irrefl 0)
  · exact absurd rfl hp

omit [DecidableEq ι] in
theorem copies_start (view : ι → List ι) : (State.start view).copies = Fintype.card ι := by
  rw [State.copies, Finset.filter_true_of_mem fun _ _ => ?_, Finset.card_univ]
  rfl

/-! ## A removal where the chunk is protected -/

omit [Fintype ι] in
/-- **A holder is asked**: if it knows more holders than the redundancy, it protects the chunk and
says so. -/
theorem exists_asked {j : ι} {rest : List ι} (hji : j ≠ i)
    (hphase : (s.server i).phase = .asking (j :: rest)) (hpresent : (s.server j).present = true)
    (hlt : redundancy < (s.server j).holders.length) :
    ∃ evs s', Run (CarefulStep redundancy) s evs s'
      ∧ s'.server = Function.update (Function.update s.server i
          { s.server i with phase := .asking rest }) j { s.server j with «protected» := true } := by
  let tid := s.nextTid
  let v : Server ι := { s.server i with phase := .waiting tid j rest }
  let s₁ : State ι := { s.put i v with requests := (tid, j) :: s.requests, nextTid := tid + 1 }
  have hj₁ : s₁.server j = s.server j := Function.update_of_ne hji ..
  have h₁ : s.ask i = some s₁ := by rw [State.ask, hphase]
  let s₂ : State ι := { s₁ with requests := s.requests, allowed := (tid, j) :: s.allowed }
  have h₂ : s₁.allow redundancy tid j = some s₂ := by
    rw [State.allow, if_pos List.mem_cons_self, if_pos (hj₁ ▸ hlt)]
    exact congrArg (fun l => some { s₂ with requests := l }) (List.erase_cons_head ..)
  let w : Server ι := { s.server j with «protected» := true }
  let s₃ : State ι :=
    { s₂.put j w with allowed := s.allowed, replies := (tid, j, true) :: s.replies }
  have h₃ : s₂.protect tid j = some s₃ := by
    rw [State.protect, if_pos List.mem_cons_self]
    dsimp only
    rw [show s₂.server j = s.server j from hj₁, Flags.setProtected, if_pos hpresent]
    exact congrArg (fun l => some { s₃ with allowed := l }) (List.erase_cons_head ..)
  have hi₃ : s₃.server i = v :=
    (Function.update_of_ne hji.symm ..).trans (Function.update_self ..)
  have h₄ : s₃.answer i true = some (s₃.put i { s.server i with phase := .asking rest }) := by
    rw [State.answer, hi₃]
    exact if_pos List.mem_cons_self
  refine ⟨[.ask i, .allow tid j, .protect tid j, .answer i true], _, .cons ⟨h₁, trivial⟩
    (.cons ⟨h₂, trivial⟩ (.cons ⟨h₃, trivial⟩ (.cons ⟨h₄, trivial⟩ (.refl _)))), ?_⟩
  change Function.update (Function.update (Function.update s.server i v) j w) i _ = _
  rw [Function.update_comm hji.symm, Function.update_idem, Function.update_comm hji]

variable (redundancy) in
omit [Fintype ι] in
/-- **A releaser asks all the holders on its list.** -/
theorem exists_round (i : ι) : ∀ (rest : List ι) {s : State ι},
    (s.server i).phase = .asking rest →
    (∀ k ∈ rest, k ≠ i ∧ (s.server k).present = true
      ∧ redundancy < (s.server k).holders.length) →
    ∃ evs s', Run (CarefulStep redundancy) s evs s'
      ∧ s'.server i = { s.server i with phase := .asking [] }
      ∧ ∀ k, k ≠ i → s'.server k
        = if k ∈ rest then { s.server k with «protected» := true } else s.server k
  | [], s, hphase, _ => by
      refine ⟨[], s, .refl s, ?_, fun k _ => (if_neg List.not_mem_nil).symm⟩
      rw [← hphase]
  | j :: rest, s, hphase, hrest => by
      obtain ⟨hji, hpresent, hlt⟩ := hrest j List.mem_cons_self
      obtain ⟨evs, s₁, hrun, hserver⟩ := exists_asked hji hphase hpresent hlt
      have hi₁ : s₁.server i = { s.server i with phase := .asking rest } := by
        rw [hserver, Function.update_of_ne hji.symm, Function.update_self]
      -- the others are as they were, but for the protection of the holder asked
      have hk₁ : ∀ k, k ≠ i → s₁.server k
          = if k = j then { s.server k with «protected» := true } else s.server k := fun k hki => by
        rw [hserver, Function.update_apply, Function.update_of_ne hki]
        split
        · next hkj => rw [hkj]
        · rfl
      obtain ⟨evs', s', hrun', hi', hk'⟩ := exists_round i rest (s := s₁) (by rw [hi₁])
        fun k hk => by
          obtain ⟨hki, hp, hl⟩ := hrest k (List.mem_cons_of_mem _ hk)
          rw [hk₁ k hki]
          split
          · exact ⟨hki, hp, hl⟩
          · exact ⟨hki, hp, hl⟩
      refine ⟨evs ++ evs', s', hrun.append hrun', by rw [hi', hi₁], fun k hki => ?_⟩
      rw [hk' k hki, hk₁ k hki]
      by_cases hkj : k = j
      · simp [hkj]
      · simp [hkj]

variable (redundancy) in
omit [Fintype ι] in
/-- A releaser takes the chunk from its channel, and finds it not protected. -/
theorem exists_checked (hpresent : (s.server i).present = true)
    (hprot : (s.server i).protected = false) (hlt : redundancy < (s.server i).holders.length)
    (hidle : (s.server i).phase = .idle) :
    ∃ evs s', Run (CarefulStep redundancy) s evs s'
      ∧ s'.server = Function.update s.server i { s.server i with phase := .checked } := by
  let s₁ : State ι := s.put i { s.server i with queued := (s.server i).queued + 1 }
  have h₁ : s.release redundancy i = some s₁ := if_pos ⟨hpresent, hlt⟩
  have hi₁ : s₁.server i = { s.server i with queued := (s.server i).queued + 1 } :=
    Function.update_self ..
  have h₂ : s₁.check i = some (s₁.put i { s.server i with phase := .checked }) := by
    rw [State.check, hi₁]
    dsimp only
    rw [hidle]
    exact if_neg (Bool.eq_false_iff.mp hprot)
  refine ⟨[.release i, .check i], _, .cons ⟨h₁, trivial⟩ (.cons ⟨h₂, trivial⟩ (.refl _)), ?_⟩
  exact Function.update_idem ..

variable (redundancy) in
omit [Fintype ι] in
/-- A releaser that has checked lists the other holders and asks them all. -/
theorem exists_ready (hchecked : (s.server i).phase = .checked)
    (height : (s.server i).holders.length ≤ 8)
    (hothers : ∀ k ∈ (s.server i).holders, k ≠ i → (s.server k).present = true
      ∧ redundancy < (s.server k).holders.length) :
    ∃ evs s', Run (CarefulStep redundancy) s evs s'
      ∧ s'.server i = { s.server i with phase := .asking [] }
      ∧ ∀ k, k ≠ i → s'.server k = if k ∈ (s.server i).holders
        then { s.server k with «protected» := true } else s.server k := by
  let v : Server ι := { s.server i with
    phase := .asking ((s.server i).holders.filter fun k => decide (k ≠ i)) }
  have hlist : s.list i = some (s.put i v) := by
    rw [State.list, hchecked]
    exact if_pos height
  have hi : (s.put i v).server i = v := Function.update_self ..
  have hk : ∀ k, k ≠ i → (s.put i v).server k = s.server k := fun k hki =>
    Function.update_of_ne hki ..
  obtain ⟨evs, s', hrun, hi', hk'⟩ := exists_round redundancy i _
    (s := s.put i v) (by rw [hi]) fun k hmem => by
      obtain ⟨hmem, hki⟩ := List.mem_filter.mp hmem
      have hki := of_decide_eq_true hki
      rw [hk k hki]
      exact ⟨hki, hothers k hmem hki⟩
  refine ⟨.list i :: evs, s', .cons ⟨hlist, trivial⟩ hrun, by rw [hi', hi], fun k hki => ?_⟩
  rw [hk' k hki, hk k hki]
  simp only [List.mem_filter, hki, ne_eq, not_false_eq_true, decide_true, and_true]

variable (redundancy) in
omit [Fintype ι] in
/-- While `j` has checked the chunk, `i` gives it up. -/
theorem exists_givenUp {view : ι → List ι} {i j : ι} (hij : i ≠ j)
    (hlt : ∀ k, redundancy < (view k).length) (height : ∀ k, (view k).length ≤ 8) :
    ∃ evs s, Run (CarefulStep redundancy) (State.start view) evs s
      ∧ (s.server i).present = false ∧ (s.server j).phase = .checked
      ∧ ∀ k, k ≠ i → (s.server k).present = true ∧ (s.server k).holders = view k := by
  obtain ⟨evs₁, s₁, hrun₁, hserver₁⟩ := exists_checked redundancy (s := State.start view) (i := j)
    rfl rfl (hlt j) rfl
  have hi₁ : s₁.server i = ⟨⟨true, false⟩, view i, 0, .idle⟩ := by
    rw [hserver₁, Function.update_of_ne hij]
    rfl
  have hk₁ : ∀ k, (s₁.server k).present = true ∧ (s₁.server k).holders = view k := fun k => by
    rw [hserver₁, Function.update_apply]
    split
    · next hkj => exact ⟨rfl, hkj ▸ rfl⟩
    · exact ⟨rfl, rfl⟩
  obtain ⟨evs₂, s₂, hrun₂, hserver₂⟩ := exists_checked redundancy (s := s₁) (i := i)
    (by rw [hi₁]) (by rw [hi₁]) (by rw [hi₁]; exact hlt i) (by rw [hi₁])
  have hi₂ : s₂.server i = ⟨⟨true, false⟩, view i, 0, .checked⟩ := by
    rw [hserver₂, Function.update_self, hi₁]
  have hk₂ : ∀ k, k ≠ i → s₂.server k = s₁.server k := fun k hki => by
    rw [hserver₂, Function.update_of_ne hki]
  obtain ⟨evs₃, s₃, hrun₃, hi₃, hk₃⟩ := exists_ready redundancy (s := s₂) (i := i)
    (by rw [hi₂]) (by rw [hi₂]; exact height i) fun k _ hki => by
      rw [hk₂ k hki, (hk₁ k).2]
      exact ⟨(hk₁ k).1, hlt k⟩
  rw [hi₂] at hi₃
  have hprot : ∀ k, k ≠ i → (s₃.server k).present = (s₁.server k).present
      ∧ (s₃.server k).holders = (s₁.server k).holders
      ∧ (s₃.server k).phase = (s₁.server k).phase := fun k hki => by
    rw [hk₃ k hki, hk₂ k hki]
    split
    · exact ⟨rfl, rfl, rfl⟩
    · exact ⟨rfl, rfl, rfl⟩
  let s₄ : State ι := s₃.put i { s₃.server i with toFlags := .absent, phase := .removed }
  have hremove : CarefulStep redundancy s₃ (.remove i) s₄ := by
    refine ⟨?_, fun _ => by rw [hi₃]⟩
    change s₃.remove i = _
    rw [State.remove, hi₃]
    exact congrArg (fun v => some (s₃.put i v)) (by rw [hi₃]; rfl)
  have hother : ∀ k, k ≠ i → s₄.server k = s₃.server k := fun k hki => Function.update_of_ne hki ..
  refine ⟨evs₁ ++ evs₂ ++ evs₃ ++ [.remove i], s₄, ((hrun₁.append hrun₂).append hrun₃).append
    (.cons hremove (.refl s₄)), ?_, ?_, fun k hki => ?_⟩
  · have hi₄ : s₄.server i = { s₃.server i with toFlags := .absent, phase := .removed } :=
      Function.update_self ..
    rw [hi₄]
    rfl
  · rw [hother j hij.symm, (hprot j hij.symm).2.2, hserver₁, Function.update_self]
  · rw [hother k hki, (hprot k hki).1, (hprot k hki).2.1]
    exact hk₁ k

/-- **A removal where the chunk is protected may lose it**: of servers with one copy to spare, `j`
has checked when `i` gives the chunk up, and hears of that before it lists the holders. -/
theorem exists_careless {view : ι → List ι} (hview : Accurate view) (hpos : 0 < redundancy)
    (hcard : Fintype.card ι = redundancy + 1) (height : Fintype.card ι ≤ 8) :
    ∃ evs s j s', Run (CarefulStep redundancy) (State.start view) evs s
      ∧ s.step redundancy (.remove j) = some s' ∧ s'.copies < redundancy := by
  have hlen : ∀ k, (view k).length = redundancy + 1 := fun k => (hview.length_eq k).trans hcard
  obtain ⟨i, j, hij⟩ := Fintype.exists_pair_of_one_lt_card (show 1 < Fintype.card ι by omega)
  obtain ⟨evs₁, s₁, hrun₁, hi₁, hj₁, hk₁⟩ := exists_givenUp redundancy hij
    (fun k => (hlen k).symm ▸ Nat.lt_succ_self _) fun k => (hlen k).trans_le (hcard ▸ height)
  -- `j` hears that `i` has given the chunk up
  let s₂ : State ι := s₁.put j { s₁.server j with holders := (s₁.server j).holders.erase i }
  have hlearn : s₁.learn j i = some s₂ := if_neg (Bool.eq_false_iff.mp hi₁)
  have hj₂ : s₂.server j = { s₁.server j with holders := (view j).erase i } := by
    rw [← (hk₁ j hij.symm).2]
    exact Function.update_self ..
  have hk₂ : ∀ k, k ≠ j → s₂.server k = s₁.server k := fun k hkj => Function.update_of_ne hkj ..
  obtain ⟨evs₃, s₃, hrun₃, hj₃, hk₃⟩ := exists_ready redundancy (s := s₂) (i := j)
    (by rw [hj₂, hj₁]) (by
      rw [hj₂]
      exact (List.length_erase_le ..).trans ((hlen j).trans_le (hcard ▸ height)))
    fun k hmem hkj => by
      rw [hj₂] at hmem
      have hki : k ≠ i := fun heq => (hview j).1.not_mem_erase (heq ▸ hmem)
      rw [hk₂ k hkj, (hk₁ k hki).2, hlen]
      exact ⟨(hk₁ k hki).1, Nat.lt_succ_self _⟩
  have hpresent : ∀ k, (s₃.server k).present
      = if k = i then false else ((State.start view).server k).present := fun k => by
    have hsame : (s₃.server k).present = (s₁.server k).present := by
      rcases eq_or_ne k j with rfl | hkj
      · rw [hj₃, hj₂]
      · rw [hk₃ k hkj, hk₂ k hkj]
        split <;> rfl
    rw [hsame]
    split
    · next hki => rw [hki, hi₁]
    · next hki => exact (hk₁ k hki).1
  have hstart := copies_remove (s := State.start view) rfl hpresent
  have hj : (s₃.server j).present = true := by
    rw [hpresent, if_neg hij.symm]
    rfl
  let s₄ : State ι := s₃.put j { s₃.server j with
    toFlags := (s₃.server j).setNoPresent, phase := .removed }
  have hasking : (s₃.server j).phase = .asking [] := by rw [hj₃]
  have hremove : s₃.remove j = some s₄ := by rw [State.remove, hasking]
  have hcopies : s₄.copies + 1 = s₃.copies := copies_remove hj fun k => by
    change (Function.update s₃.server j _ k).present = _
    rw [Function.update_apply]
    split
    · rw [Flags.setNoPresent, if_pos hj]
      rfl
    · rfl
  refine ⟨evs₁ ++ .learn j i :: evs₃, s₃, j, _, hrun₁.append (.cons ⟨hlearn, trivial⟩ hrun₃),
    hremove, ?_⟩
  rw [copies_start] at hstart
  omega

/-- **When a release loses no chunk.**  Servers that all hold the chunk and know each other, at
least as many as the redundancy: along every run in which the chunk is removed only where it is not
protected there are never fewer copies than the redundancy.  With one copy to spare, one removal
where it is protected is enough to lose one of them. -/
theorem release_keeps_redundancy {view : ι → List ι} (hview : Accurate view)
    (hcard : redundancy ≤ Fintype.card ι) :
    (∀ evs s, Run (CarefulStep redundancy) (State.start view) evs s → redundancy ≤ s.copies)
      ∧ (0 < redundancy → Fintype.card ι = redundancy + 1 → Fintype.card ι ≤ 8 →
        ∃ evs s j s', Run (CarefulStep redundancy) (State.start view) evs s
          ∧ s.step redundancy (.remove j) = some s' ∧ s'.copies < redundancy) := by
  refine ⟨fun evs s hrun => ?_, exists_careless hview⟩
  exact (hrun.invariant (I := fun s => Inv redundancy s.server s.replies ∧ redundancy ≤ s.copies)
    (fun h hs => hs.inv h) ⟨inv_start hview redundancy, (copies_start view).symm ▸ hcard⟩).2

/-- One of three holders gives the chunk up; the two others are protected and keep it. -/
theorem release_keeps_redundancy_three : ∃ s : State (Fin 3),
    Run (CarefulStep 1) (State.start fun _ => [0, 1, 2]) [.release 0, .check 0, .list 0, .ask 0,
      .allow 0 1, .protect 0 1, .answer 0 true, .ask 0, .allow 1 2, .protect 1 2, .answer 0 true,
      .remove 0, .forget 0] s ∧ 1 ≤ s.copies := by
  have hobs : (List.foldlM (fun (s : State (Fin 3)) ev =>
      if Careful s ev then s.step 1 ev else none) (State.start fun _ => [0, 1, 2])
      [.release 0, .check 0, .list 0, .ask 0, .allow 0 1, .protect 0 1, .answer 0 true, .ask 0,
        .allow 1 2, .protect 1 2, .answer 0 true, .remove 0, .forget 0]).map (fun s => s.copies)
      = some 2 := by decide +kernel
  obtain ⟨s, hs, -⟩ := Option.map_eq_some_iff.mp hobs
  have hrun : Run (CarefulStep 1) _ _ s := (Run.of_foldlM hs).mono fun {s ev s'} h => by
    split at h
    · next hcareful => exact ⟨h, hcareful⟩
    · cases h
  exact ⟨s, hrun, (release_keeps_redundancy (by decide) (by decide)).1 _ _ hrun⟩

/-- Two holders that check before they protect each other: both give the chunk up. -/
theorem release_loses_chunk : ∃ s : State (Fin 2),
    Run (fun s ev s' => State.step 1 s ev = some s') (State.start fun _ => [0, 1])
      [.release 0, .release 1, .check 0, .check 1, .list 0, .list 1, .ask 0, .ask 1, .allow 0 1,
        .allow 1 0, .protect 0 1, .protect 1 0, .answer 0 true, .answer 1 true, .remove 0,
        .remove 1] s ∧ s.copies = 0 := by
  have hobs : (List.foldlM (State.step 1) (State.start fun _ : Fin 2 => [0, 1])
      [.release 0, .release 1, .check 0, .check 1, .list 0, .list 1, .ask 0, .ask 1, .allow 0 1,
        .allow 1 0, .protect 0 1, .protect 1 0, .answer 0 true, .answer 1 true, .remove 0,
        .remove 1]).map (fun s => s.copies) = some 0 := by decide +kernel
  obtain ⟨s, hs, hcopies⟩ := Option.map_eq_some_iff.mp hobs
  exact ⟨s, Run.of_foldlM hs, hcopies⟩

end Release

end Treeless
