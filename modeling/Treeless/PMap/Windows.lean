import Treeless.PMap.Checksum
import Mathlib.Algebra.BigOperators.Group.List.Basic
import Mathlib.Data.UInt
import Mathlib.Order.Lattice

/-!
# PMap/Windows — what the two older copies of the checksum hold

The copies are meant to be stable: each is the sum of the deltas made before its own time, whatever
the order in which the deltas came in.

    deltas ──► new ──(time passes newTime)──► medium ──(again)──► old

A delta gets into a copy when the windows move, or, if it comes late, by a comparison of its time
with that of the copy.  The two agree on every time but `newTime` itself: a delta made then does not
move the windows, and is moved into a copy whose time it is not before.
-/

namespace Treeless

namespace SyncChecksum

/-- A call. -/
inductive Entry
  | sum (el : UInt64) (t : Time)
  | sub (el : UInt64) (t : Time)
  deriving DecidableEq, Repr

namespace Entry

/-- What a call adds. -/
def delta : Entry → UInt64
  | sum el _ => el
  | sub el _ => -el

def time : Entry → Time
  | sum _ t => t
  | sub _ t => t

end Entry

def apply (s : SyncChecksum) : Entry → SyncChecksum
  | .sum el t => s.sum el t
  | .sub el t => s.sub el t

/-- The checksum after a list of calls. -/
def after (es : List Entry) : SyncChecksum := es.foldl apply zero

/-- The checksum reported at the time `now`, and what this call leaves. -/
def checksum (s : SyncChecksum) (now : Time) : UInt64 × SyncChecksum :=
  ((s.sum 0 now).oldChecksum, s.sum 0 now)

/-- The sum of the deltas made before `T`. -/
def sumBefore (T : Time) (es : List Entry) : UInt64 :=
  ((es.filter fun e => e.time < T).map Entry.delta).sum

/-- **Both copies are what they should be.** -/
def Right (es : List Entry) : Prop :=
  (after es).mediumChecksum = sumBefore (after es).mediumTime es
    ∧ (after es).oldChecksum = sumBefore (after es).oldTime es

instance (es : List Entry) : Decidable (Right es) := inferInstanceAs (Decidable (_ ∧ _))

/-- `newTime` after a call at the time `t`. -/
def advance (newTime t : Time) : Time := if newTime < t then nextSecond t else newTime

/-- No call is made at `newTime`. -/
def OffBoundary : Time → List Time → Prop
  | _, [] => True
  | newTime, t :: ts => t ≠ newTime ∧ OffBoundary (advance newTime t) ts

/-! ## One call -/

theorem apply_eq (s : SyncChecksum) (e : Entry) : s.apply e = s.sum e.delta e.time := by
  cases e <;> rfl

theorem after_snoc (es : List Entry) (e : Entry) :
    after (es ++ [e]) = (after es).sum e.delta e.time := by
  rw [after, List.foldl_append, List.foldl_cons, List.foldl_nil, apply_eq]
  rfl

theorem newTime_sum (s : SyncChecksum) (el : UInt64) (t : Time) :
    (s.sum el t).newTime = advance s.newTime t := by
  simp only [sum, shift, advance]
  split <;> rfl

theorem lt_nextSecond (t : Time) : t < nextSecond t := Int.lt_ediv_add_one_mul_self t (by decide)

theorem le_advance (T t : Time) : T ≤ advance T t := by
  rw [advance]
  split
  · next h => exact (h.trans (lt_nextSecond t)).le
  · exact le_rfl

theorem lt_advance {T t : Time} (h : t ≠ T) : t < advance T t := by
  rw [advance]
  split
  · exact lt_nextSecond t
  · next hle => exact lt_of_le_of_ne (not_lt.mp hle) h

theorem sumBefore_snoc (T : Time) (es : List Entry) (e : Entry) :
    sumBefore T (es ++ [e]) = sumBefore T es + if e.time < T then e.delta else 0 := by
  rw [sumBefore, sumBefore, List.filter_append, List.map_append, List.sum_append]
  congr 1
  by_cases h : e.time < T
  · rw [if_pos h, List.filter_cons, if_pos (decide_eq_true h)]
    exact List.sum_singleton
  · rw [if_neg h, List.filter_cons, if_neg fun hdec => h (of_decide_eq_true hdec)]
    rfl

/-- Deltas that are all made before `T`. -/
theorem sumBefore_of_forall_lt {T : Time} {es : List Entry} (h : ∀ e ∈ es, e.time < T) :
    sumBefore T es = (es.map Entry.delta).sum := by
  rw [sumBefore, List.filter_eq_self.mpr fun e he => decide_eq_true (h e he)]

/-- **The order of the calls does not matter** to what a copy should be. -/
theorem sumBefore_perm {es es' : List Entry} (h : es.Perm es') (T : Time) :
    sumBefore T es = sumBefore T es' := ((h.filter _).map _).sum_eq

/-! ## Runs -/

/-- What holds as long as no call is made at `newTime`. -/
structure Stable (s : SyncChecksum) (es : List Entry) : Prop where
  new_eq : s.newChecksum = (es.map Entry.delta).sum
  medium_eq : s.mediumChecksum = sumBefore s.mediumTime es
  old_eq : s.oldChecksum = sumBefore s.oldTime es
  lt_new : ∀ e ∈ es, e.time < s.newTime

theorem stable_zero : Stable zero [] := ⟨rfl, rfl, rfl, List.forall_mem_nil _⟩

/-- A copy that is right takes the next delta as it should. -/
theorem add_eq_sumBefore {sum : UInt64} {T : Time} {es : List Entry} (h : sum = sumBefore T es)
    (e : Entry) :
    (if e.time < T then sum + e.delta else sum) = sumBefore T (es ++ [e]) := by
  rw [sumBefore_snoc, h]
  split
  · rfl
  · exact (add_zero _).symm

/-- The windows move: the copies are right after that too. -/
theorem Stable.shift {s : SyncChecksum} {es : List Entry} (h : Stable s es) (t : Time) :
    (s.shift t).mediumChecksum = sumBefore (s.shift t).mediumTime es
      ∧ (s.shift t).oldChecksum = sumBefore (s.shift t).oldTime es := by
  rw [SyncChecksum.shift]
  split
  · exact ⟨h.new_eq.trans (sumBefore_of_forall_lt h.lt_new).symm, h.medium_eq⟩
  · exact ⟨h.medium_eq, h.old_eq⟩

/-- **One call**, not at `newTime`. -/
theorem Stable.sum {s : SyncChecksum} {es : List Entry} (h : Stable s es) {e : Entry}
    (he : e.time ≠ s.newTime) : Stable (s.sum e.delta e.time) (es ++ [e]) := by
  obtain ⟨hmedium, hold⟩ := h.shift e.time
  refine ⟨?_, add_eq_sumBefore hmedium e, add_eq_sumBefore hold e, fun a ha => ?_⟩
  · rw [newChecksum_sum, h.new_eq, List.map_append, List.sum_append]
    exact congrArg _ List.sum_singleton.symm
  · rw [newTime_sum]
    rcases List.mem_append.mp ha with ha | ha
    · exact (h.lt_new a ha).trans_le (le_advance _ _)
    · rw [List.mem_singleton.mp ha]
      exact lt_advance he

/-- **A list of calls**, none of them at `newTime`. -/
theorem Stable.run {es' : List Entry} : ∀ {s : SyncChecksum} {es : List Entry}, Stable s es →
    OffBoundary s.newTime (es'.map Entry.time) → Stable (es'.foldl apply s) (es ++ es') := by
  induction es' with
  | nil => exact fun h _ => by rwa [List.append_nil]
  | cons e es' ih =>
    rintro s es h ⟨he, hrest⟩
    rw [List.foldl_cons, apply_eq, List.append_cons]
    exact ih (h.sum he) (by rwa [newTime_sum])

theorem stable_after {es : List Entry} (h : OffBoundary zeroTime (es.map Entry.time)) :
    Stable (after es) es := stable_zero.run h

theorem OffBoundary.take : ∀ {ts : List Time} {T : Time}, OffBoundary T ts →
    ∀ n, OffBoundary T (ts.take n)
  | [], _, _, n => by rw [List.take_nil]; trivial
  | _ :: _, _, _, 0 => trivial
  | _ :: _, _, h, n + 1 => ⟨h.1, h.2.take n⟩

/-! ## A call at the boundary -/

theorem newTime_after (es : List Entry) :
    (after es).newTime = (es.map Entry.time).foldl advance zeroTime := by
  induction es using List.reverseRecOn with
  | nil => rfl
  | append_singleton es e ih =>
    rw [after_snoc, newTime_sum, ih, List.map_append, List.foldl_append]
    rfl

theorem newChecksum_after (es : List Entry) :
    (after es).newChecksum = (es.map Entry.delta).sum := by
  induction es using List.reverseRecOn with
  | nil => rfl
  | append_singleton es e ih =>
    rw [after_snoc, newChecksum_sum, ih, List.map_append, List.sum_append]
    exact congrArg _ List.sum_singleton.symm

/-- After the time has moved on, the medium copy is all there was. -/
theorem medium_of_lt {es : List Entry} {t : Time} (ht : (after es).newTime < t) :
    (after (es ++ [.sum 0 t])).mediumChecksum = (es.map Entry.delta).sum
      ∧ (after (es ++ [.sum 0 t])).mediumTime = (after es).newTime := by
  rw [after_snoc, ← newChecksum_after]
  dsimp only [Entry.delta, Entry.time]
  rw [sum, SyncChecksum.shift, if_pos ht]
  exact ⟨if_neg ht.not_gt, rfl⟩

/-- The first call at the boundary. -/
theorem exists_boundary : ∀ {ts : List Time} {T : Time}, ¬ OffBoundary T ts →
    ∃ pre t post, ts = pre ++ t :: post ∧ t = pre.foldl advance T
  | [], _, h => absurd trivial h
  | t :: ts, T, h => by
      by_cases ht : t = T
      · exact ⟨[], t, ts, rfl, ht⟩
      · obtain ⟨pre, t', post, rfl, heq⟩ := exists_boundary fun hoff => h ⟨ht, hoff⟩
        exact ⟨t :: pre, t', post, rfl, heq⟩

/-- Calls with no delta. -/
def quiet (ts : List Time) : List Entry := ts.map (Entry.sum 0)

theorem time_quiet (ts : List Time) : (quiet ts).map Entry.time = ts := by
  rw [quiet, List.map_map]
  exact List.map_id ts

theorem delta_quiet {ts : List Time} {e : Entry} (he : e ∈ quiet ts) : e.delta = 0 := by
  obtain ⟨t, -, rfl⟩ := List.mem_map.mp he
  rfl

/-- **A delta made at `newTime` spoils the medium copy** when the time moves on. -/
theorem not_right_of_boundary (pre : List Time) {t t' : Time} (ht : t = pre.foldl advance zeroTime)
    (hlt : t < t') : (after (quiet pre ++ [.sum 1 t])).newTime = t
      ∧ ¬ Right (quiet pre ++ [.sum 1 t] ++ [.sum 0 t']) := by
  have hnew : (after (quiet pre ++ [.sum 1 t])).newTime = t := by
    rw [newTime_after, List.map_append, time_quiet, List.foldl_append, ← ht]
    exact if_neg (lt_irrefl t)
  refine ⟨hnew, fun hright => ?_⟩
  obtain ⟨hsum, htime⟩ := medium_of_lt (hnew.trans_lt hlt)
  have hall : ((quiet pre).map Entry.delta).sum = 0 := List.sum_eq_zero fun x hx => by
    obtain ⟨e, he, rfl⟩ := List.mem_map.mp hx
    exact delta_quiet he
  have hbefore : sumBefore t (quiet pre) = 0 := List.sum_eq_zero fun x hx => by
    obtain ⟨e, he, rfl⟩ := List.mem_map.mp hx
    exact delta_quiet (List.mem_of_mem_filter he)
  have hmedium := hright.1
  rw [hsum, htime, hnew, sumBefore_snoc, sumBefore_snoc, hbefore, List.map_append, List.sum_append,
    hall, if_neg (show ¬ Entry.time (.sum 1 t) < t from lt_irrefl t),
    if_neg (show ¬ Entry.time (.sum 0 t') < t from hlt.not_gt)] at hmedium
  exact absurd (show (0 : UInt64) + (1 + 0) = 0 + 0 + 0 from hmedium) (by decide)

/-! ## The copies -/

/-- What is reported, if no call was made at `newTime`. -/
theorem checksum_eq {es : List Entry} (h : OffBoundary zeroTime (es.map Entry.time)) (now : Time) :
    ((after es).checksum now).1 = sumBefore ((after es).checksum now).2.oldTime es := by
  refine Eq.trans ?_ ((stable_after h).shift now).2
  dsimp only [checksum, sum]
  rw [UInt64.add_zero, ite_self]

/-- **Time-stable windows.**  With the calls made at the times `ts`, both copies are right at every
point, and still when the time moves on from there, whatever the deltas, exactly if no call is made
at `newTime`.  Then two checksums that got the same deltas in different orders report the same, if
they report the same time. -/
theorem windows_right_iff (ts : List Time) :
    ((∀ es : List Entry, es.map Entry.time = ts → ∀ n, Right (es.take n)
        ∧ ∀ t, (after (es.take n)).newTime < t → Right (es.take n ++ [.sum 0 t]))
      ↔ OffBoundary zeroTime ts)
    ∧ ∀ (es es' : List Entry) (now now' : Time), es.Perm es' →
      OffBoundary zeroTime (es.map Entry.time) → OffBoundary zeroTime (es'.map Entry.time) →
      ((after es).checksum now).2.oldTime = ((after es').checksum now').2.oldTime →
      ((after es).checksum now).1 = ((after es').checksum now').1 := by
  refine ⟨⟨fun h => ?_, ?_⟩, ?_⟩
  · by_contra hoff
    obtain ⟨pre, t, post, rfl, ht⟩ := exists_boundary hoff
    obtain ⟨hnew, hwrong⟩ := not_right_of_boundary pre ht (Int.lt_succ t)
    have htimes : (quiet pre ++ [Entry.sum 1 t] ++ quiet post).map Entry.time
        = pre ++ t :: post := by
      rw [List.map_append, List.map_append, time_quiet, time_quiet, List.append_cons]
      rfl
    have hright := (h _ htimes (quiet pre ++ [Entry.sum 1 t]).length).2 (t + 1)
    rw [List.take_left] at hright
    exact hwrong (hright (hnew.trans_lt (Int.lt_succ t)))
  · rintro hoff es rfl n
    have hn : OffBoundary zeroTime ((es.take n).map Entry.time) := by
      rw [List.map_take]
      exact hoff.take n
    have h := stable_after hn
    refine ⟨⟨h.medium_eq, h.old_eq⟩, fun t ht => ?_⟩
    have h' := h.sum (e := .sum 0 t) ht.ne'
    rw [← after_snoc] at h'
    exact ⟨h'.medium_eq, h'.old_eq⟩
  · intro es es' now now' hperm hoff hoff' htime
    rw [checksum_eq hoff, checksum_eq hoff', htime, sumBefore_perm hperm]

/-- A delta made at a whole second: the copy of that second has it, although it was not made before;
and a checksum that got it later than another delta reports something else, for the same time. -/
theorem boundary_spoils_windows :
    ¬ Right [.sum 1 0, .sum 2 1000000000, .sum 4 2000000000]
    ∧ ∃ es es' : List Entry, es.Perm es'
      ∧ ((after es).checksum 4000000000).2.oldTime = ((after es').checksum 4000000000).2.oldTime
      ∧ ((after es).checksum 4000000000).1 ≠ ((after es').checksum 4000000000).1 := by
  refine ⟨by decide, [.sum 1 0, .sum 2 1000000000, .sum 4 2000000000],
    [.sum 1 0, .sum 4 2000000000, .sum 2 1000000000], ?_, by decide, by decide⟩
  exact .cons _ (.swap _ _ _)

end SyncChecksum

end Treeless
