import Treeless.Com.Broker
import Treeless.Machinery.Guard

/-!
# Dist/Duplicate — the duplicator

A server that is to hold a chunk asks a holder for its length, sets the chunk present, and, if there
is something to transfer, queues it; a goroutine asks the holders for a transfer, one by one, and
starts again if none acknowledges.

    duplicate ──► length 0: completed
        │
        └──► length > 0: queued ──► a holder acknowledges: completed
                  ▲                          │
                  └──────── duplicate ◄──────┴── none does

On the way a failure becomes something else.  `VirtualServer.GetChunkInfo` returns the length 0 if
there is no connection or no answer, and `VirtualServer.Transfer` returns no error if there is no
connection.

The releaser may drop the chunk at any time, with transfers of it still queued; a later `duplicate`
then starts anew, with an empty chunk that no holder has answered for.
-/

namespace Treeless

/-- What comes of a call on a server: `none` if there is no connection. -/
abbrev Outcome := Option Result

namespace Outcome

/-- The server has answered. -/
def answers (o : Outcome) : Bool := o.any fun r => r.err.isNone

/-- `Conn.GetChunkInfo`. -/
def connGetChunkInfo (r : Result) : Call (UInt64 × Option ClientError) :=
  match r.err with
  | some err => .ok (0, some err)
  | none => do return (UInt64.ofNat (leNat (← slice r.value 0 8)), none)

/-- `VirtualServer.GetChunkInfo`, which drops the error. -/
def getChunkInfo : Outcome → Call UInt64
  | none => .ok 0
  | some r => Prod.fst <$> connGetChunkInfo r

/-- `Conn.Transfer`. -/
def connTransfer (r : Result) : Option ClientError := r.err

/-- `VirtualServer.Transfer`: no connection is no error. -/
def transfer : Outcome → Option ClientError
  | none => none
  | some r => connTransfer r

end Outcome

/-- What the duplicator has done for a chunk. -/
structure Duplicator where
  present : Bool
  /-- The transfers of the chunk that are queued or under way. -/
  queued : ℕ
  /-- For the chunk as it is present now, a holder has answered that it is empty or has acknowledged
  a transfer. -/
  answered : Bool
  deriving DecidableEq, Repr

namespace Duplicator

/-- A chunk that is not here. -/
def new : Duplicator := ⟨false, 0, false⟩

/-- **The chunk is regarded as duplicated, and no holder has answered.** -/
def Unfounded (s : Duplicator) : Prop := s.present = true ∧ s.queued = 0 ∧ s.answered = false

/-- The free space that is assumed. -/
def freeSpace : UInt64 := 1000000000

variable {ι : Type} (s : Duplicator)

/-! ## Asking a holder -/

/-- `GetAnyHolder`; `pick` is the random number. -/
def getAnyHolder (holders : List ι) (pick : ℕ) : Option ι := holders[pick % holders.length]?

/-- `duplicate`, with what comes of `GetChunkInfo` on each server. -/
def duplicate (holders : List ι) (pick : ℕ) (info : ι → Outcome) : Call Duplicator :=
  match getAnyHolder holders pick with
  | none => .ok s
  | some h => do
    let length ← (info h).getChunkInfo
    if length = UInt64.ofNat (2 ^ 64 - 1) then return s
    else if length > freeSpace then return s
    else if length = 0 then return { s with
      present := true
      answered := s.answered || (info h).answers }
    else return { s with present := true, queued := s.queued + 1 }

/-- **A failure is taken for an empty chunk.** -/
theorem getChunkInfo_of_failed {o : Outcome} (h : o.answers = false) :
    o.getChunkInfo = .ok 0 := by
  cases o with
  | none => rfl
  | some r =>
    cases herr : r.err with
    | none =>
      rw [Outcome.answers, Option.any_some, herr] at h
      cases h
    | some err =>
      rw [Outcome.getChunkInfo, Outcome.connGetChunkInfo, herr]
      rfl

/-- The holder asked has not answered. -/
def Failed (holders : List ι) (pick : ℕ) (info : ι → Outcome) : Prop :=
  ∃ h, getAnyHolder holders pick = some h ∧ (info h).answers = false

/-- No holder is found, or it reports too much. -/
def Hopeless (holders : List ι) (pick : ℕ) (info : ι → Outcome) : Prop :=
  ∀ h length, getAnyHolder holders pick = some h → (info h).getChunkInfo = .ok length →
    freeSpace < length

theorem Failed.not_hopeless {holders : List ι} {pick : ℕ} {info : ι → Outcome}
    (h : Failed holders pick info) : ¬ Hopeless holders pick info := fun hno => by
  obtain ⟨holder, hholder, hfail⟩ := h
  exact absurd (hno holder 0 hholder (getChunkInfo_of_failed hfail)) (by decide)

/-- What `duplicate` does: nothing, without a holder or with one that reports too much; or it sets
the chunk present, and queues it if it is not empty. -/
theorem duplicate_cases {s s' : Duplicator} {holders : List ι} {pick : ℕ} {info : ι → Outcome}
    (h : s.duplicate holders pick info = .ok s') :
    (s' = s ∧ Hopeless holders pick info)
    ∨ ∃ h length, getAnyHolder holders pick = some h ∧ (info h).getChunkInfo = .ok length
      ∧ length ≤ freeSpace
      ∧ (length = 0 ∧ s' = { s with
          present := true
          answered := s.answered || (info h).answers }
        ∨ length ≠ 0 ∧ s' = { s with present := true, queued := s.queued + 1 }) := by
  rw [duplicate] at h
  split at h
  · next hnone =>
    cases h
    exact Or.inl ⟨rfl, fun h length hh => (by rw [hnone] at hh; cases hh)⟩
  · next holder hsome =>
    obtain ⟨length, hlength, h⟩ := Call.bind_eq_ok.mp h
    have huniq : ∀ h' length', getAnyHolder holders pick = some h' →
        (info h').getChunkInfo = .ok length' → length' = length := fun h' length' hh hl => by
      cases hsome.symm.trans hh
      exact Except.ok.inj (hl.symm.trans hlength)
    split at h
    · next hmax =>
      cases h
      refine Or.inl ⟨rfl, fun h' length' hh hl => ?_⟩
      rw [huniq h' length' hh hl, hmax]
      decide
    · split at h
      · next hbig =>
        cases h
        exact Or.inl ⟨rfl, fun h' length' hh hl => huniq h' length' hh hl ▸ hbig⟩
      · next hfits =>
        refine Or.inr ⟨holder, length, hsome, hlength, UInt64.not_lt.mp hfits, ?_⟩
        split at h
        · next hzero =>
          cases h
          exact Or.inl ⟨hzero, rfl⟩
        · next hpos =>
          cases h
          exact Or.inr ⟨hpos, rfl⟩

/-- **What `duplicate` leaves unfounded**: it took a failure for an answer, or it gave up. -/
theorem unfounded_duplicate_iff {s s' : Duplicator} {holders : List ι} {pick : ℕ}
    {info : ι → Outcome} (h : s.duplicate holders pick info = .ok s') :
    s'.Unfounded ↔ (s.queued = 0 ∧ s.answered = false)
      ∧ (Failed holders pick info ∨ s.present = true ∧ Hopeless holders pick info) := by
  rcases duplicate_cases h with ⟨rfl, hno⟩ | ⟨holder, length, hholder, hlength, hfits, h⟩
  · have hfail : ¬ Failed holders pick info := fun hf => hf.not_hopeless hno
    rw [Unfounded]
    tauto
  · have hhope : ¬ Hopeless holders pick info := fun hno =>
      UInt64.not_lt.mpr hfits (hno holder length hholder hlength)
    have hfailed : Failed holders pick info ↔ (info holder).answers = false := by
      refine ⟨?_, fun hf => ⟨holder, hholder, hf⟩⟩
      rintro ⟨h', hh', hf⟩
      cases hholder.symm.trans hh'
      exact hf
    rw [hfailed]
    rcases h with ⟨rfl, rfl⟩ | ⟨hne, rfl⟩
    · rw [Unfounded]
      dsimp only
      rw [Bool.or_eq_false_iff]
      tauto
    · have hanswers : (info holder).answers ≠ false := fun hf =>
        hne (Except.ok.inj (hlength.symm.trans (getChunkInfo_of_failed hf)))
      refine ⟨fun hbad => ?_, fun hbad => (hbad.2.elim hanswers fun hno => hhope hno.2).elim⟩
      cases hbad.2.1

/-! ## Transfers -/

variable [DecidableEq ι]

/-- `GetChunkHolders`: the array has eight places. -/
def getChunkHolders (holders : List ι) : Call (List (Option ι)) :=
  if holders.length ≤ 8 then
    .ok (holders.map some ++ List.replicate (8 - holders.length) none)
  else .error .bounds

/-- The loop over the holders: the one at which it ends. -/
def transferFrom (localhost : ι) (ack : ι → Outcome) : List (Option ι) → Option ι
  | [] => none
  | none :: servers => transferFrom localhost ack servers
  | some s :: servers =>
    if s = localhost then transferFrom localhost ack servers
    else match (ack s).transfer with
      | some _ => transferFrom localhost ack servers
      | none => some s

/-- The holder whose `Transfer` ends the search for one, if there is one. -/
def search (localhost : ι) (ack : ι → Outcome) (servers : List ι) : Call (Option ι) :=
  transferFrom localhost ack <$> getChunkHolders servers

inductive Event (ι : Type)
  /-- The rebalancer calls `duplicate`. -/
  | duplicate (holders : List ι) (pick : ℕ) (info : ι → Outcome)
  /-- The goroutine takes the chunk and asks the holders `servers`; `ack` is what comes of it. -/
  | work (servers : List ι) (ack : ι → Outcome) (holders : List ι) (pick : ℕ) (info : ι → Outcome)
  /-- The releaser calls `ChunkSetNoPresent`. -/
  | release

/-- The duplicator after an event; `none` if it cannot happen. -/
def next (localhost : ι) : Event ι → Option Duplicator
  | .duplicate holders pick info => (s.duplicate holders pick info).toOption
  | .work servers ack holders pick info =>
    match s.queued with
    | 0 => none
    | n + 1 => do
      match ← (search localhost ack servers).toOption with
      | some h => return { s with
          queued := n
          answered := s.answered || (s.present && (ack h).answers) }
      | none => (duplicate { s with queued := n } holders pick info).toOption
  -- The file goes with the chunk, and with it what was transferred; the channel keeps its entries.
  | .release => some { s with present := false, answered := false }

/-- The steps of the duplicator. -/
def Step (localhost : ι) (s : Duplicator) (ev : Event ι) (s' : Duplicator) : Prop :=
  s.next localhost ev = some s'

/-- Until a holder has answered, and while no other transfer is queued: every `GetChunkInfo` is
answered; and of a chunk that is present, a `Transfer` that returns no error is acknowledged, and
when there is none a holder reports a length with which the duplication starts again. -/
def Sound (localhost : ι) (s : Duplicator) : Event ι → Prop
  | .duplicate holders pick info =>
    s.answered = true ∨ 0 < s.queued ∨ ¬ Failed holders pick info
  | .work servers ack holders pick info => s.answered = true ∨ 1 < s.queued
    ∨ (∀ h, search localhost ack servers = .ok (some h) →
        s.present = true → (ack h).answers = true)
      ∧ (search localhost ack servers = .ok none →
        ¬ Failed holders pick info ∧ (s.present = true → ¬ Hopeless holders pick info))
  | .release => True

/-! ## Runs -/

theorem founded_new : ¬ new.Unfounded := fun h => by cases h.1

theorem step_work {localhost : ι} {s s' : Duplicator} {servers holders : List ι} {pick : ℕ}
    {ack info : ι → Outcome} (hs : Step localhost s (.work servers ack holders pick info) s') :
    ∃ n, s.queued = n + 1
      ∧ ((∃ h, search localhost ack servers = .ok (some h)
          ∧ s' = { s with
            queued := n
            answered := s.answered || (s.present && (ack h).answers) })
        ∨ search localhost ack servers = .ok none
          ∧ duplicate { s with queued := n } holders pick info = .ok s') := by
  rw [Step, next] at hs
  split at hs
  · cases hs
  · next n hn =>
    obtain ⟨found, hfound, hs⟩ := Option.bind_eq_some_iff.mp hs
    have hsearch := Call.eq_ok_of_toOption hfound
    refine ⟨n, hn, ?_⟩
    cases found with
    | some h =>
      cases hs
      exact Or.inl ⟨h, hsearch, rfl⟩
    | none => exact Or.inr ⟨hsearch, Call.eq_ok_of_toOption hs⟩

/-- **A step leaves the chunk unfounded** exactly if it is not sound. -/
theorem unfounded_step_iff {localhost : ι} {s s' : Duplicator} {ev : Event ι}
    (h : ¬ s.Unfounded) (hs : Step localhost s ev s') :
    s'.Unfounded ↔ ¬ Sound localhost s ev := by
  cases ev with
  | duplicate holders pick info =>
    rw [Unfounded] at h
    rw [unfounded_duplicate_iff (Call.eq_ok_of_toOption hs), Sound, not_or, not_or, not_not,
      Bool.not_eq_true, Nat.pos_iff_ne_zero, not_not]
    tauto
  | work servers ack holders pick info =>
    obtain ⟨n, hn, hs⟩ := step_work hs
    have hone : ¬ 1 < s.queued ↔ n = 0 := by omega
    rw [Sound, not_or, not_or, Bool.not_eq_true, hone]
    rcases hs with ⟨holder, hsearch, rfl⟩ | ⟨hsearch, hdup⟩
    · have hack : (∀ h, search localhost ack servers = .ok (some h) →
            s.present = true → (ack h).answers = true)
          ↔ (s.present = true → (ack holder).answers = true) := by
        refine ⟨fun hall => hall holder hsearch, fun hans h hh => ?_⟩
        cases hsearch.symm.trans hh
        exact hans
      have hnone : search localhost ack servers ≠ .ok none := fun hno => by
        cases hsearch.symm.trans hno
      rw [hack, Unfounded]
      cases hpresent : s.present with
      | false => simp [hnone]
      | true =>
        rw [Bool.true_and, Bool.or_eq_false_iff, not_and_or, Classical.not_imp, Bool.not_eq_true]
        tauto
    · have hack : ∀ h, search localhost ack servers = .ok (some h) →
          s.present = true → (ack h).answers = true :=
        fun h hh => by cases hsearch.symm.trans hh
      rw [unfounded_duplicate_iff hdup]
      dsimp only
      tauto
  | release =>
    cases hs
    exact ⟨fun hbad => (by cases hbad.1), fun hsound => (hsound trivial).elim⟩

/-- **Duplication completes only on an answer**: never without one as long as the calls are sound;
and each call that is not leaves the chunk present with nothing queued and no answer. -/
theorem completes_on_answer_iff (localhost : ι) :
    ExactGuard (Step localhost) (Sound localhost) Unfounded new :=
  .of_invariant founded_new (fun h hsound hs hbad => (unfounded_step_iff h hs).mp hbad hsound) id
    fun h hsound hs => .now ((unfounded_step_iff h hs).mpr hsound)

/-- **Two ways to complete without an answer**: the holder that is asked for the length cannot be
reached; or it reports 100 bytes, and cannot be reached when it is asked for the transfer. -/
theorem completes_without_answer :
    (∃ s, Run (Step "local") new [.duplicate ["holder"] 0 fun _ => none] s ∧ s.Unfounded)
    ∧ ∃ s, Run (Step "local") new
        [.duplicate ["holder"] 0 fun _ => some ⟨leBytes 8 100, none⟩,
          .work ["holder"] (fun _ => none) ["holder"] 0 fun _ => none] s ∧ s.Unfounded := by
  have hrun : ∀ {evs s}, evs.foldlM (fun s ev => next s "local" ev) new = some s →
      Run (Step "local") new evs s := fun h => Run.of_foldlM h
  exact ⟨⟨⟨true, 0, false⟩, hrun rfl, rfl, rfl, rfl⟩,
    ⟨true, 0, false⟩, hrun (by decide), rfl, rfl, rfl⟩

end Duplicator

end Treeless
