import Treeless.Com.Queue
import Treeless.Machinery.Run

/-!
# Com/Deadlines — the queue over a whole run

`clean` and `forall` take entries off the head.  In every run in which no new entry is earlier than
all pending ones, the queue holds the pending entries in order, and `clean` and `forall` call back
on the entries they should, once each (`queue_correct`).  A push that is earlier breaks the list,
and the next `clean` may dereference `nil` (`queue_breaks`).
-/

namespace Treeless

namespace Queue

variable {q : Queue} {ps : List ℕ} {tm : ℕ} {d : Deadline}

/-! ## Taking entries off the head -/

variable {f : ℕ}

/-- The memory after the new head, if there is one, has lost its next node. -/
def topped (m : Nodes) (ps : List ℕ) : Nodes := ps.head?.elim m (m.setNext · none)

theorem deadline_topped (m : Nodes) (ps : List ℕ) : (topped m ps).deadline = m.deadline := by
  cases ps with
  | nil => rfl
  | cons a ps => exact Nodes.deadline_setNext

theorem prevOf_topped (m : Nodes) (ps : List ℕ) : (topped m ps).prevOf = m.prevOf := by
  cases ps with
  | nil => rfl
  | cons a ps => exact Nodes.prevOf_setNext

theorem nextOf_topped (m : Nodes) {ps : List ℕ} {p : ℕ} (hp : p ∉ ps.head?) :
    (topped m ps).nextOf p = m.nextOf p := by
  cases ps with
  | nil => rfl
  | cons a ps =>
    have hne : p ≠ a := fun heq => hp (heq ▸ rfl)
    simp [topped, hne]

theorem unlink_eq (h : q.Lists (f :: ps)) : q.unlink f = .ok { q with
    nodes := topped q.nodes ps
    head := ps.head?
    tail := ps.getLast?
    l := ps.length } := by
  have hl : q.l - 1 = ps.length := by
    rw [h.l_eq]
    rfl
  have hprev : q.nodes.prevOf f = ps.head? := by
    have := h.threaded.2.1
    rwa [Option.or_none] at this
  rw [unlink]
  dsimp only
  rw [hl, hprev]
  match ps with
  | [] => rfl
  | [a] => rfl
  | a :: b :: rest =>
    rw [if_neg (by simp), if_pos (by simp)]
    have htail := h.tail_eq
    rw [List.getLast?_cons_cons] at htail
    rw [← htail]
    rfl

/-- **The node taken off the head goes back to the pool.** -/
theorem Lists.unlink (h : q.Lists (f :: ps)) : ∃ q', q.unlink f = .ok q' ∧ (q'.put f).Lists ps
    ∧ (q'.put f).nodes.deadline = q.nodes.deadline := by
  obtain ⟨hf, hnd⟩ := List.nodup_cons.mp h.nodup
  have hne : ∀ p ∈ ps, p ≠ f := fun p hp heq => hf (heq ▸ hp)
  have hdead : (((topped q.nodes ps).setNext f none).setPrev f none).deadline
      = q.nodes.deadline := by
    rw [Nodes.deadline_setPrev, Nodes.deadline_setNext, deadline_topped]
  have hprev : ∀ p ≠ f, (((topped q.nodes ps).setNext f none).setPrev f none).prevOf p
      = q.nodes.prevOf p := fun p hp => by
    rw [Nodes.prevOf_setPrev, Nodes.prevOf_setNext, Function.update_of_ne hp, prevOf_topped]
  have hnext : ∀ p ≠ f, p ∉ ps.head? →
      (((topped q.nodes ps).setNext f none).setPrev f none).nextOf p = q.nodes.nextOf p :=
    fun p hp hh => by
      rw [Nodes.nextOf_setPrev, Nodes.nextOf_setNext, Function.update_of_ne hp, nextOf_topped _ hh]
  refine ⟨_, unlink_eq h,
    ⟨⟨rfl, rfl, ?_⟩, rfl, hnd, ?_, fun p hp => ?_, fun p hp => ?_, ?_, fun p hp hmem => ?_⟩, hdead⟩
  · cases ps with
    | nil => trivial
    | cons a rest =>
      refine h.threaded.2.2.retop (fun p hp => hprev p (hne p hp)) (fun p hp => ?_) ?_
      · have hpa : p ≠ a := fun heq => (List.nodup_cons.mp hnd).1 (heq ▸ hp)
        exact hnext p (hne p (List.mem_cons_of_mem _ hp)) fun h => hpa (Option.some.inj h).symm
      · have haf := hne a List.mem_cons_self
        simp [put, topped, haf]
  · rw [put, hdead]
    exact (List.pairwise_cons.mp h.sorted).2
  · exact h.lt_fresh p (List.mem_cons_of_mem _ hp)
  · rcases eq_or_ne p f with rfl | hpf
    · simp [put]
    · have hout := h.clear p fun hmem => (List.mem_cons.mp hmem).elim hpf hp
      exact ⟨(hprev p hpf).trans hout.1,
        (hnext p hpf fun hmem => hp (List.mem_of_mem_head? hmem)).trans hout.2⟩
  · exact List.nodup_cons.mpr ⟨h.not_mem_pool f List.mem_cons_self, h.pool_nodup⟩
  · rcases List.mem_cons.mp hmem with rfl | hmem
    · exact hf hp
    · exact h.not_mem_pool p (List.mem_cons_of_mem _ hp) hmem

/-- **`clean` takes off the entries before `now`.** -/
theorem Lists.cleanLoop (now : ℤ) : ∀ {ps : List ℕ} {q : Queue}, q.Lists ps →
    ∃ q', Queue.cleanLoop now ps.length q = .ok ((q.deadlines ps).filter (·.t < now), q')
      ∧ q'.Lists (ps.filter fun p => ¬ (q.nodes.deadline p).t < now)
      ∧ q'.nodes.deadline = q.nodes.deadline
  | [], q, h => ⟨q, rfl, h, rfl⟩
  | f :: ps, q, h => by
      rw [List.length_cons, Queue.cleanLoop, h.head_eq, List.head?_cons, deref, Call.ok_bind]
      split
      · next hearly =>
        have hearly' : (q.nodes.deadline f).t < now := hearly
        obtain ⟨q₁, hunlink, h₁, hdead₁⟩ := h.unlink
        obtain ⟨q', hloop, h', hdead'⟩ := h₁.cleanLoop now
        have hsame : (q₁.put f).deadlines ps = q.deadlines ps := congrArg (List.map · ps) hdead₁
        rw [hdead₁] at h' hdead'
        rw [hsame] at hloop
        refine ⟨q', ?_, ?_, hdead'⟩
        · rw [hunlink, Call.ok_bind, hloop, deadlines_cons,
            List.filter_cons_of_pos (by simpa using hearly')]
          rfl
        · rwa [List.filter_cons_of_neg (by simpa using hearly')]
      · next hlate =>
        have hall : ∀ p ∈ f :: ps, ¬ (q.nodes.deadline p).t < now := by
          intro p hp
          rcases List.mem_cons.mp hp with rfl | hp
          · exact hlate
          · exact fun hlt => hlate (((List.pairwise_cons.mp h.sorted).1 p hp).trans_lt hlt)
        have hnone : (q.deadlines (f :: ps)).filter (·.t < now) = [] := by
          refine List.filter_eq_nil_iff.mpr fun d hd => ?_
          obtain ⟨p, hp, rfl⟩ := List.mem_map.mp hd
          simpa using hall p hp
        have hself : (f :: ps).filter (fun p => ¬ (q.nodes.deadline p).t < now) = f :: ps :=
          List.filter_eq_self.mpr fun p hp => by simpa using hall p hp
        exact ⟨q, by rw [hnone]; rfl, hself.symm ▸ h, rfl⟩

/-- **`forall` takes off every entry.** -/
theorem forallLoop_eq : ∀ {ps : List ℕ} {q : Queue} {nx : Option ℕ},
    Threaded q.nodes.prevOf q.nodes.nextOf nx ps none → q.head = ps.head? → q.l = ps.length →
    ps.Nodup → ∃ q', forallLoop ps.length q = .ok (q.deadlines ps, q') ∧ q'.l = 0
      ∧ q'.fresh = q.fresh ∧ q'.pool = ps.reverse ++ q.pool
      ∧ ∀ p, (p ∈ ps → q'.nodes.prevOf p = none ∧ q'.nodes.nextOf p = none)
        ∧ (p ∉ ps → q'.nodes.prevOf p = q.nodes.prevOf p ∧ q'.nodes.nextOf p = q.nodes.nextOf p)
  | [], q, _, _, _, hl, _ => ⟨q, rfl, hl, rfl, rfl, fun p => ⟨nofun, fun _ => ⟨rfl, rfl⟩⟩⟩
  | f :: ps, q, _, h, hhead, hl, hnd => by
      obtain ⟨hf, hnd⟩ := List.nodup_cons.mp hnd
      have hne : ∀ p ∈ ps, p ≠ f := fun p hp heq => hf (heq ▸ hp)
      have hprev : q.nodes.prevOf f = ps.head? := by
        have := h.2.1
        rwa [Option.or_none] at this
      have hrest : Threaded ((q.nodes.setNext f none).setPrev f none).prevOf
          ((q.nodes.setNext f none).setPrev f none).nextOf (some f) ps none :=
        h.2.2.congr (fun p hp => by simp [hne p hp]) fun p hp => by simp [hne p hp]
      obtain ⟨q', hloop, hl', hfresh, hpool, hnodes⟩ := forallLoop_eq
        (q := { put { q with head := q.nodes.prevOf f } f with l := q.l - 1 }) hrest hprev
        (by dsimp only; rw [hl]; rfl) hnd
      refine ⟨q', ?_, hl', hfresh, ?_, fun p => ⟨fun hp => ?_, fun hp => ?_⟩⟩
      · rw [List.length_cons, forallLoop, hhead, List.head?_cons, deref, Call.ok_bind]
        dsimp only
        have hdead : ((q.nodes.setNext f none).setPrev f none).deadline = q.nodes.deadline := by
          rw [Nodes.deadline_setPrev, Nodes.deadline_setNext]
        have hsame : deadlines { put { q with head := q.nodes.prevOf f } f with l := q.l - 1 } ps
            = q.deadlines ps := congrArg (List.map · ps) hdead
        rw [hsame] at hloop
        exact (congrArg (· >>= fun r => pure (q.nodes.deadline f :: r.1, r.2)) hloop).trans rfl
      · rw [hpool, List.reverse_cons, List.append_assoc]
        rfl
      · rcases List.mem_cons.mp hp with rfl | hp
        · have hkeep := (hnodes p).2 hf
          simpa [put] using hkeep
        · exact (hnodes p).1 hp
      · rw [List.mem_cons, not_or] at hp
        have hkeep := (hnodes p).2 hp.2
        simpa [put, hp.1] using hkeep

theorem Lists.forall (h : q.Lists ps) :
    ∃ q', q.forall = .ok (q.deadlines ps, q') ∧ q'.Lists [] := by
  obtain ⟨q', hloop, hl, -, hpool, hnodes⟩ := forallLoop_eq h.threaded h.head_eq h.l_eq h.nodup
  refine ⟨{ q' with head := none, tail := none }, ?_,
    ⟨rfl, rfl, trivial⟩, hl, .nil, .nil, nofun, fun p _ => ?_, ?_, nofun⟩
  · rw [Queue.forall, h.l_eq, hloop]
    rfl
  · by_cases hp : p ∈ ps
    · exact (hnodes p).1 hp
    · have hkeep := (hnodes p).2 hp
      have hclear := h.clear p hp
      exact ⟨hkeep.1.trans hclear.1, hkeep.2.trans hclear.2⟩
  · dsimp only
    rw [hpool, List.nodup_append, List.nodup_reverse]
    refine ⟨h.nodup, h.pool_nodup, fun a ha b hb heq => ?_⟩
    exact h.not_mem_pool a (List.mem_reverse.mp ha) (heq ▸ hb)

/-! ## Runs -/

/-- What happens to the queue: an entry is pushed, in a node from the pool, or old ones are
cleaned. -/
inductive Event
  | push (tm : ℕ) (d : Deadline)
  | clean (now : ℤ)

/-- The event takes the queue from `q` to `q'`. -/
def Steps (q : Queue) : Event → Queue → Prop
  | .push tm d, q' => q.Available tm ∧ (q.get tm d).push tm = .ok q'
  | .clean now, q' => ∃ calls, q.clean now = .ok (calls, q')

/-- The entry pushed, if one is, is not the earliest. -/
def Ordered (q : Queue) : Event → Prop
  | .push _ d => q.Behind d
  | .clean _ => True

instance (q : Queue) : (ev : Event) → Decidable (q.Ordered ev)
  | .push _ d => inferInstanceAs (Decidable (q.Behind d))
  | .clean _ => inferInstanceAs (Decidable True)

/-- The entries that are pending, in the order of their push. -/
def pending (evs : List Event) : List Deadline := evs.foldl (fun ds ev =>
  match ev with
  | .push _ d => ds ++ [d]
  | .clean now => ds.filter fun d => ¬ d.t < now) []

/-- **The queue is what it should be**: following `prev` from the head visits, once each, `l` nodes
whose entries are the pending ones `ds`, up to the tail, in the order of the deadlines, and `next`
is the inverse of `prev`. -/
def Correct (q : Queue) (ds : List Deadline) : Prop :=
  ∃ ps, q.Lists ps ∧ follow q.nodes.prevOf q.l q.head = ps ∧ (q.deadlines ps).Perm ds

theorem Lists.correct (h : q.Lists ps) {ds : List Deadline} (hds : (q.deadlines ps).Perm ds) :
    q.Correct ds := by
  refine ⟨ps, h, ?_, hds⟩
  rw [h.head_eq, h.l_eq]
  exact h.threaded.follow_eq _ le_rfl

variable {ds : List Deadline}

theorem correct_create : create.Correct [] := lists_create.correct .nil

/-- **`clean` calls the callback on the entries before `now`**, and removes them. -/
theorem Correct.clean (h : q.Correct ds) (now : ℤ) : ∃ calls q', q.clean now = .ok (calls, q')
    ∧ calls.Perm (ds.filter (·.t < now)) ∧ q'.Correct (ds.filter fun d => ¬ d.t < now) := by
  obtain ⟨ps, h, -, hds⟩ := h
  obtain ⟨q', hloop, h', hdead⟩ := h.cleanLoop now
  refine ⟨_, q', by rw [Queue.clean, h.l_eq, hloop], hds.filter _, h'.correct ?_⟩
  have hfilter := hds.filter fun d => ¬ d.t < now
  rw [deadlines, List.filter_map] at hfilter
  rw [deadlines, hdead]
  exact hfilter

theorem Correct.forall (h : q.Correct ds) :
    ∃ calls q', q.forall = .ok (calls, q') ∧ calls.Perm ds ∧ q'.Correct [] := by
  obtain ⟨ps, h, -, hds⟩ := h
  obtain ⟨q', hloop, h'⟩ := h.forall
  exact ⟨_, q', hloop, hds, h'.correct .nil⟩

/-- **A push returns, with a correct queue exactly if the new entry is not the earliest.** -/
theorem Correct.push (h : q.Correct ds) (htm : q.Available tm) (d : Deadline) :
    ∃ q', (q.get tm d).push tm = .ok q' ∧ (q'.Correct (ds ++ [d]) ↔ q.Behind d) := by
  obtain ⟨ps, h, -, hds⟩ := h
  by_cases hd : q.Behind d
  · obtain ⟨q', ps', hpush, h', hperm⟩ := h.push htm hd
    exact ⟨q', hpush, iff_of_true (h'.correct (hperm.trans (hds.append_right _))) hd⟩
  · obtain ⟨q', hpush, hbroken⟩ := h.push_early htm hd
    exact ⟨q', hpush, iff_of_false (fun hc => hc.elim fun ps' h' => hbroken ps' h'.1) hd⟩

/-- **One event.** -/
theorem Correct.step {evs : List Event} {ev : Event} {q' : Queue} (h : q.Correct (pending evs))
    (hord : q.Ordered ev) (hs : q.Steps ev q') : q'.Correct (pending (evs ++ [ev])) := by
  rw [pending, List.foldl_append]
  cases ev with
  | push tm d =>
    obtain ⟨q₁, hpush, hiff⟩ := h.push hs.1 d
    obtain rfl := Except.ok.inj (hpush.symm.trans hs.2)
    exact hiff.mpr hord
  | clean now =>
    obtain ⟨calls, q₁, hclean, -, h'⟩ := h.clean now
    obtain ⟨calls', hs⟩ := hs
    obtain ⟨-, rfl⟩ := Prod.mk.inj (Except.ok.inj (hclean.symm.trans hs))
    exact h'

/-- **In every run in which no entry is pushed that is earlier than all pending ones**, the queue is
correct; `clean` calls the callback once on each entry before `now` and removes it; `forall` calls
it once on every entry; and a push keeps the queue correct exactly if its entry is not the
earliest. -/
theorem queue_correct {evs : List Event}
    (hrun : Run (fun q ev q' => q.Ordered ev ∧ q.Steps ev q') create evs q) :
    q.Correct (pending evs)
      ∧ (∀ now, ∃ calls q', q.clean now = .ok (calls, q')
        ∧ calls.Perm ((pending evs).filter (·.t < now))
        ∧ q'.Correct ((pending evs).filter fun d => ¬ d.t < now))
      ∧ (∃ calls q', q.forall = .ok (calls, q') ∧ calls.Perm (pending evs) ∧ q'.Correct [])
      ∧ ∀ tm d, q.Available tm → ∃ q', (q.get tm d).push tm = .ok q'
        ∧ (q'.Correct (pending evs ++ [d]) ↔ q.Behind d) := by
  have h : q.Correct (pending evs) := hrun.history (R := fun q evs => q.Correct (pending evs))
    correct_create fun h hs => h.step hs.1 hs.2
  exact ⟨h, h.clean, h.forall, fun tm d htm => h.push htm d⟩

/-- Two requests, the second with the shorter timeout: `clean` dereferences `nil`. -/
theorem queue_breaks : ∃ q, Run Steps create [.push 0 ⟨10, 0⟩, .push 1 ⟨5, 1⟩] q
    ∧ q.clean 20 = .error .panic :=
  ⟨_, .cons ⟨Or.inr rfl, rfl⟩ (.cons ⟨Or.inr rfl, rfl⟩ (.refl _)), rfl⟩

/-- Two requests in the order of their deadlines, of which one times out. -/
theorem queue_correct_two : ∃ q calls q', Run (fun q ev q' => q.Ordered ev ∧ q.Steps ev q') create
    [.push 0 ⟨5, 0⟩, .push 1 ⟨10, 1⟩] q ∧ q.clean 7 = .ok (calls, q')
      ∧ calls.Perm [⟨5, 0⟩] := by
  have hrun : Run (fun q ev q' => Ordered q ev ∧ Steps q ev q') create
      [.push 0 ⟨5, 0⟩, .push 1 ⟨10, 1⟩] _ :=
    .cons ⟨nofun, Or.inr rfl, rfl⟩ (.cons ⟨by decide, Or.inr rfl, rfl⟩ (.refl _))
  obtain ⟨calls, q', hclean, hcalls, -⟩ := (queue_correct hrun).2.1 7
  exact ⟨_, calls, q', hrun, hclean, hcalls⟩

end Queue

end Treeless
