import Treeless.Machinery.Bytes
import Treeless.Machinery.Thread
import Mathlib.Data.List.Nodup
import Mathlib.Data.List.Perm.Subperm
import Mathlib.Order.Lattice

/-!
# Com/Queue — the deadlines of the pending requests

The broker keeps the deadlines of its pending requests in a doubly linked list, the earliest at the
head.  Nodes are recycled through a pool.

    head --prev--> … --prev--> tail        deadlines do not decrease along prev
    head <--next-- … <--next-- tail

`push` walks from the tail to the entry the new one belongs behind (`Lists.push`).  Before the first
entry there is none: the branch for a new earliest entry links it before the head, and then falls
through into the code that links it behind (`Lists.push_early`).
-/

namespace Treeless

/-- A pending deadline. -/
structure Deadline where
  t : ℤ
  tid : UInt32
  deriving DecidableEq, Repr

/-- A node of the queue; pointers are numbers, `nil` is `none`. -/
structure TimeoutMsg extends Deadline where
  prev : Option ℕ
  next : Option ℕ

/-- The memory of the nodes. -/
abbrev Nodes := ℕ → TimeoutMsg

namespace Nodes

variable (m : Nodes)

def setPrev (p : ℕ) (x : Option ℕ) : Nodes := Function.update m p { m p with prev := x }

def setNext (p : ℕ) (x : Option ℕ) : Nodes := Function.update m p { m p with next := x }

def setDeadline (p : ℕ) (d : Deadline) : Nodes := Function.update m p { m p with toDeadline := d }

def prevOf (p : ℕ) : Option ℕ := (m p).prev

def nextOf (p : ℕ) : Option ℕ := (m p).next

def deadline (p : ℕ) : Deadline := (m p).toDeadline

/-- The loop of `push`: from `x` to the head, while the entries are later than `tm`.  A walk of more
steps than nodes would go on forever. -/
def seek (tm : ℕ) : ℕ → ℕ → Call ℕ
  | 0, _ => .error .endless
  | fuel + 1, x =>
    match m.nextOf x with
    | none => .ok x
    | some y => if (m x).t > (m tm).t then seek tm fuel y else .ok x

end Nodes

/-- A queue with the memory of its nodes: those from `fresh` on have not been allocated. -/
structure Queue where
  nodes : Nodes
  fresh : ℕ
  pool : List ℕ
  head : Option ℕ
  tail : Option ℕ
  l : ℕ

namespace Queue

def create : Queue := ⟨fun _ => ⟨⟨0, 0⟩, none, none⟩, 0, [], none, none, 0⟩

variable (q : Queue)

/-- A pointer that is not `nil`. -/
def deref : Option ℕ → Call ℕ
  | some p => .ok p
  | none => .error .panic

/-- `pool.Get` of the node `tm`, from the pool or a new one, and its deadline. -/
def get (tm : ℕ) (d : Deadline) : Queue :=
  { q with
    nodes := q.nodes.setDeadline tm d
    fresh := max q.fresh (tm + 1)
    pool := q.pool.erase tm }

/-- The branch of `push` for an entry earlier than the head. -/
def toHead (tm x : ℕ) : Queue :=
  if q.nodes.nextOf x = none ∧ (q.nodes x).t > (q.nodes tm).t then
    { q with head := some tm, nodes := (q.nodes.setNext x (some tm)).setPrev tm (some x) }
  else q

/-- Links `tm` behind `x`. -/
def insertBehind (tm x : ℕ) : Queue :=
  let prev := q.nodes.prevOf x
  let nodes := ((q.nodes.setPrev x (some tm)).setNext tm (some x)).setPrev tm prev
  match prev with
  | some prev => { q with nodes := nodes.setNext prev (some tm) }
  | none => { q with nodes, tail := some tm }

def push (tm : ℕ) : Call Queue := do
  let q := { q with l := q.l + 1 }
  if q.l = 1 then return { q with tail := some tm, head := some tm }
  else
    let x ← q.nodes.seek tm (q.fresh + 1) (← deref q.tail)
    -- the branch for a new head does not return
    return (q.toHead tm x).insertBehind tm x

/-- Gives a node that is not in the list back to the pool. -/
def put (f : ℕ) : Queue :=
  { q with nodes := (q.nodes.setNext f none).setPrev f none, pool := f :: q.pool }

/-- Takes the node `f` off the head of the list. -/
def unlink (f : ℕ) : Call Queue := do
  let q := { q with head := q.nodes.prevOf f, l := q.l - 1 }
  if q.l = 1 then
    return { q with nodes := q.nodes.setNext (← deref q.head) none, tail := q.head }
  else if q.l > 1 then return { q with nodes := q.nodes.setNext (← deref q.head) none }
  else return { q with head := none, tail := none }

/-- The loop of `clean`, with the entries the callback is called on. -/
def cleanLoop (now : ℤ) : ℕ → Queue → Call (List Deadline × Queue)
  | 0, q => .ok ([], q)
  | n + 1, q => do
    let f ← deref q.head
    if now > (q.nodes f).t then
      let d := q.nodes.deadline f
      let q ← q.unlink f
      let (calls, q) ← cleanLoop now n (q.put f)
      return (d :: calls, q)
    else return ([], q)

def clean (now : ℤ) : Call (List Deadline × Queue) := cleanLoop now q.l q

/-- The loop of `forall`. -/
def forallLoop : ℕ → Queue → Call (List Deadline × Queue)
  | 0, q => .ok ([], q)
  | n + 1, q => do
    let f ← deref q.head
    let d := q.nodes.deadline f
    let q := put { q with head := q.nodes.prevOf f } f
    let (calls, q) ← forallLoop n { q with l := q.l - 1 }
    return (d :: calls, q)

def «forall» : Call (List Deadline × Queue) := do
  let (calls, q) ← forallLoop q.l q
  return (calls, { q with head := none, tail := none })

end Queue

/-! ## The pointers -/

namespace Nodes

variable {m : Nodes} {p : ℕ} {x : Option ℕ}

@[simp] theorem prevOf_setPrev : (m.setPrev p x).prevOf = Function.update m.prevOf p x := by
  ext1 a
  simp only [prevOf, setPrev, Function.update_apply]
  split <;> rfl

@[simp] theorem prevOf_setNext : (m.setNext p x).prevOf = m.prevOf := by
  ext1 a
  simp only [prevOf, setNext, Function.update_apply]
  split
  · next h => rw [h]
  · rfl

@[simp] theorem nextOf_setNext : (m.setNext p x).nextOf = Function.update m.nextOf p x := by
  ext1 a
  simp only [nextOf, setNext, Function.update_apply]
  split <;> rfl

@[simp] theorem nextOf_setPrev : (m.setPrev p x).nextOf = m.nextOf := by
  ext1 a
  simp only [nextOf, setPrev, Function.update_apply]
  split
  · next h => rw [h]
  · rfl

@[simp] theorem deadline_setPrev : (m.setPrev p x).deadline = m.deadline := by
  ext1 a
  simp only [deadline, setPrev, Function.update_apply]
  split
  · next h => rw [h]
  · rfl

@[simp] theorem deadline_setNext : (m.setNext p x).deadline = m.deadline := by
  ext1 a
  simp only [deadline, setNext, Function.update_apply]
  split
  · next h => rw [h]
  · rfl

@[simp] theorem prevOf_setDeadline {d : Deadline} : (m.setDeadline p d).prevOf = m.prevOf := by
  ext1 a
  simp only [prevOf, setDeadline, Function.update_apply]
  split
  · next h => rw [h]
  · rfl

@[simp] theorem nextOf_setDeadline {d : Deadline} : (m.setDeadline p d).nextOf = m.nextOf := by
  ext1 a
  simp only [nextOf, setDeadline, Function.update_apply]
  split
  · next h => rw [h]
  · rfl

@[simp] theorem deadline_setDeadline {d : Deadline} :
    (m.setDeadline p d).deadline = Function.update m.deadline p d := by
  ext1 a
  simp only [deadline, setDeadline, Function.update_apply]
  split <;> rfl

end Nodes

namespace Queue

variable {q : Queue}

/-- The pointers of the queue are those of the list `ps`. -/
structure Linked (q : Queue) (ps : List ℕ) : Prop where
  head_eq : q.head = ps.head?
  tail_eq : q.tail = ps.getLast?
  threaded : Threaded q.nodes.prevOf q.nodes.nextOf none ps none

/-- **A node linked behind another.** -/
theorem Linked.insertBehind {pre post : List ℕ} {x tm : ℕ} (h : q.Linked (pre ++ x :: post))
    (hnd : (pre ++ x :: post).Nodup) (htm : tm ∉ pre ++ x :: post) :
    (q.insertBehind tm x).Linked (pre ++ x :: tm :: post) := by
  have hx : q.nodes.prevOf x = post.head? := by
    have := (threaded_append.mp h.threaded).2.2.1
    rwa [Option.or_none] at this
  have hhead : (pre ++ x :: post).head? = (pre ++ x :: tm :: post).head? := by
    rw [List.head?_append, List.head?_append, List.head?_cons, List.head?_cons]
  rw [List.nodup_append, List.nodup_cons] at hnd
  obtain ⟨-, ⟨hxpost, hpost⟩, hapart⟩ := hnd
  simp only [List.mem_append, List.mem_cons, not_or] at htm
  obtain ⟨htmpre, htmx, htmpost⟩ := htm
  have hprex : ∀ a ∈ pre, a ≠ x := fun a ha => hapart a ha x List.mem_cons_self
  have hpretm : ∀ a ∈ pre, a ≠ tm := fun a ha heq => htmpre (heq ▸ ha)
  have hposttm : ∀ a ∈ post, a ≠ tm := fun a ha heq => htmpost (heq ▸ ha)
  have hpostx : ∀ a ∈ post, a ≠ x := fun a ha heq => hxpost (heq ▸ ha)
  unfold Queue.insertBehind
  rw [hx]
  cases post with
  | nil =>
    refine ⟨h.head_eq.trans hhead, by simp, h.threaded.insert ?_ ?_ ?_ nofun nofun nofun⟩
    · intro a ha
      simp [hprex a ha, hpretm a ha]
    · simp [Ne.symm htmx]
    · simp
  | cons b bs =>
    have hb : b ≠ tm := hposttm b List.mem_cons_self
    refine ⟨h.head_eq.trans hhead, ?_, h.threaded.insert ?_ ?_ ?_ ?_ ?_ ?_⟩
    · rw [h.tail_eq]
      simp
    · intro a ha
      have hab : a ≠ b := hapart a ha b (List.mem_cons_of_mem _ List.mem_cons_self)
      simp [hprex a ha, hpretm a ha, hab]
    · have hxb : x ≠ b := Ne.symm (hpostx b List.mem_cons_self)
      simp [Ne.symm htmx, hxb]
    · simp [Ne.symm hb]
    · intro a ha
      simp [hpostx a ha, hposttm a ha]
    · simp
    · intro a ha
      have hab : a ≠ b := fun heq => (List.nodup_cons.mp hpost).1 (heq ▸ ha)
      simp [hab, hposttm a (List.mem_cons_of_mem _ ha)]

/-- What `insertBehind` does not touch. -/
theorem insertBehind_frame (q : Queue) (tm x : ℕ) :
    (q.insertBehind tm x).nodes.deadline = q.nodes.deadline
      ∧ (q.insertBehind tm x).head = q.head ∧ (q.insertBehind tm x).l = q.l
      ∧ (q.insertBehind tm x).fresh = q.fresh ∧ (q.insertBehind tm x).pool = q.pool := by
  unfold Queue.insertBehind
  dsimp only
  split <;> simp

theorem insertBehind_apart {x tm a : ℕ} (hx : a ≠ x) (htm : a ≠ tm) (hb : a ∉ q.nodes.prevOf x) :
    (q.insertBehind tm x).nodes.prevOf a = q.nodes.prevOf a
      ∧ (q.insertBehind tm x).nodes.nextOf a = q.nodes.nextOf a := by
  unfold Queue.insertBehind
  dsimp only
  split
  · next b heq =>
    have hab : a ≠ b := fun h => hb (h ▸ heq)
    simp [hx, htm, hab]
  · simp [hx, htm]

theorem nextOf_insertBehind {x tm : ℕ} (htm : tm ∉ q.nodes.prevOf x) :
    (q.insertBehind tm x).nodes.nextOf tm = some x := by
  unfold Queue.insertBehind
  dsimp only
  split
  · next b heq =>
    have hb : tm ≠ b := fun h => htm (h ▸ heq)
    simp [hb]
  · simp

/-- The queue holds the nodes `ps`, in the order of their deadlines; the other nodes are clear. -/
structure Lists (q : Queue) (ps : List ℕ) : Prop extends q.Linked ps where
  l_eq : q.l = ps.length
  nodup : ps.Nodup
  sorted : ps.Pairwise fun p p' => (q.nodes.deadline p).t ≤ (q.nodes.deadline p').t
  lt_fresh : ∀ p ∈ ps, p < q.fresh
  clear : ∀ p ∉ ps, q.nodes.prevOf p = none ∧ q.nodes.nextOf p = none
  pool_nodup : q.pool.Nodup
  not_mem_pool : ∀ p ∈ ps, p ∉ q.pool

theorem lists_create : create.Lists [] :=
  ⟨⟨rfl, rfl, trivial⟩, rfl, .nil, .nil, nofun, fun _ _ => ⟨rfl, rfl⟩, .nil, nofun⟩

/-- `pool.Get` may return the node `tm`. -/
def Available (q : Queue) (tm : ℕ) : Prop := tm ∈ q.pool ∨ tm = q.fresh

instance (q : Queue) (tm : ℕ) : Decidable (q.Available tm) := inferInstanceAs (Decidable (_ ∨ _))

variable {ps : List ℕ} {tm : ℕ} {d : Deadline}

theorem Lists.not_mem (h : q.Lists ps) (htm : q.Available tm) : tm ∉ ps := fun hmem =>
  htm.elim (h.not_mem_pool tm hmem) fun heq => (h.lt_fresh tm hmem).ne heq

/-- The deadlines of the nodes in the queue. -/
def deadlines (q : Queue) (ps : List ℕ) : List Deadline := ps.map q.nodes.deadline

theorem deadlines_cons (p : ℕ) (ps : List ℕ) :
    q.deadlines (p :: ps) = q.nodes.deadline p :: q.deadlines ps := rfl

@[simp] theorem deadline_get_self : (q.get tm d).nodes.deadline tm = d := by simp [get]

theorem deadline_get_of_mem (h : q.Lists ps) (htm : q.Available tm) {p : ℕ} (hp : p ∈ ps) :
    (q.get tm d).nodes.deadline p = q.nodes.deadline p := by
  have hne : p ≠ tm := fun heq => h.not_mem htm (heq ▸ hp)
  simp [get, hne]

/-- **A node is taken from outside the list.** -/
theorem Lists.get (h : q.Lists ps) (htm : q.Available tm) (d : Deadline) :
    (q.get tm d).Lists ps where
  head_eq := h.head_eq
  tail_eq := h.tail_eq
  threaded := by simpa [Queue.get] using h.threaded
  l_eq := h.l_eq
  nodup := h.nodup
  sorted := h.sorted.imp_of_mem fun {p p'} hp hp' hle => by
    rwa [deadline_get_of_mem h htm hp, deadline_get_of_mem h htm hp']
  lt_fresh p hp := lt_max_of_lt_left (h.lt_fresh p hp)
  clear p hp := by simpa [Queue.get] using h.clear p hp
  pool_nodup := h.pool_nodup.erase tm
  not_mem_pool p hp hmem := h.not_mem_pool p hp (List.mem_of_mem_erase hmem)

/-- **The walk ends behind the later entries**, at an entry that is not later or at the head. -/
theorem seek_threaded {m : Nodes} {t : ℤ} (ht : (m.deadline tm).t = t) :
    ∀ (fuel : ℕ) {pre post : List ℕ} {x : ℕ},
    Threaded m.prevOf m.nextOf none (pre ++ x :: post) none → pre.length < fuel →
    (∀ p ∈ post, t < (m.deadline p).t) →
    ∃ pre' y post', pre ++ x :: post = pre' ++ y :: post' ∧ m.seek tm fuel x = .ok y
      ∧ (∀ p ∈ post', t < (m.deadline p).t) ∧ ((m.deadline y).t ≤ t ∨ pre' = [])
  | 0, _, _, _, _, hfuel, _ => absurd hfuel (Nat.not_lt_zero _)
  | fuel + 1, pre, post, x, h, hfuel, hpost => by
      have hnext : m.nextOf x = pre.getLast? := by
        have := (threaded_append.mp h).2.1
        rwa [Option.or_none] at this
      rw [Nodes.seek, hnext, show (m tm).t = t from ht]
      rcases List.eq_nil_or_concat pre with rfl | ⟨pre, y, rfl⟩
      · exact ⟨[], x, post, rfl, rfl, hpost, Or.inr rfl⟩
      · rw [List.concat_eq_append] at h hfuel ⊢
        rw [List.getLast?_append, List.getLast?_singleton, Option.some_or]
        dsimp only
        split
        · next hlater =>
          have heq : pre ++ [y] ++ x :: post = pre ++ y :: x :: post := by simp
          rw [List.length_append, List.length_singleton] at hfuel
          rw [heq] at h ⊢
          refine seek_threaded ht fuel h (by omega) fun p hp => ?_
          rcases List.mem_cons.mp hp with rfl | hp
          · exact hlater
          · exact hpost p hp
        · next hnot => exact ⟨pre ++ [y], x, post, rfl, rfl, hpost, Or.inl (not_lt.mp hnot)⟩

theorem push_of_empty (hl : q.l = 0) (tm : ℕ) :
    q.push tm = .ok { q with l := 1, tail := some tm, head := some tm } := by
  rw [push, hl]
  rfl

theorem push_of_seek (hl : q.l ≠ 0) {last x : ℕ} (htail : q.tail = some last)
    (hseek : q.nodes.seek tm (q.fresh + 1) last = .ok x) :
    q.push tm = .ok ((toHead { q with l := q.l + 1 } tm x).insertBehind tm x) := by
  rw [push]
  dsimp only
  rw [if_neg (by omega), htail, deref, Call.ok_bind, hseek, Call.ok_bind, Call.pure_eq, ← htail]

theorem Lists.length_le (h : q.Lists ps) : ps.length ≤ q.fresh := by
  have hsub : ps ⊆ List.range q.fresh := fun p hp => List.mem_range.mpr (h.lt_fresh p hp)
  simpa using (h.nodup.subperm hsub).length_le

/-- **The first entry.** -/
theorem Lists.push_nil (h : q.Lists []) (htm : q.Available tm) (d : Deadline) :
    ∃ q', (q.get tm d).push tm = .ok q' ∧ q'.Lists [tm] ∧ q'.nodes.deadline tm = d := by
  have h₁ := h.get htm d
  obtain ⟨hprev, hnext⟩ := h₁.clear tm List.not_mem_nil
  refine ⟨_, push_of_empty h₁.l_eq tm, ?_, deadline_get_self⟩
  refine ⟨⟨rfl, rfl, hnext, hprev, trivial⟩, rfl, List.nodup_singleton _,
    List.pairwise_singleton _ _, fun p hp => ?_, fun p _ => h₁.clear p List.not_mem_nil,
    h₁.pool_nodup, fun p hp => ?_⟩
  · rw [List.mem_singleton.mp hp]
    exact lt_max_of_lt_right (Nat.lt_succ_self tm)
  · rw [List.mem_singleton.mp hp]
    exact h.pool_nodup.not_mem_erase

/-- **A push into a queue that is not empty** walks to an entry, and links the new one there. -/
theorem Lists.push_eq (h : q.Lists ps) (hne : ps ≠ []) (htm : q.Available tm) (d : Deadline) :
    ∃ pre x post, ps = pre ++ x :: post
      ∧ (q.get tm d).push tm
        = .ok ((toHead { q.get tm d with l := q.l + 1 } tm x).insertBehind tm x)
      ∧ (∀ p ∈ post, d.t < (q.nodes.deadline p).t)
      ∧ ((q.nodes.deadline x).t ≤ d.t ∨ pre = []) := by
  have h₁ := h.get htm d
  obtain ⟨front, last, rfl⟩ : ∃ front last, ps = front ++ [last] := by
    obtain ⟨front, last, rfl⟩ := (List.eq_nil_or_concat ps).resolve_left hne
    exact ⟨front, last, List.concat_eq_append⟩
  have hlen := h₁.length_le
  rw [List.length_append, List.length_singleton] at hlen
  obtain ⟨pre, x, post, heq, hseek, hlater, hx⟩ := seek_threaded
    (congrArg Deadline.t deadline_get_self) ((q.get tm d).fresh + 1) h₁.threaded (by omega) nofun
  have hmem : ∀ p ∈ pre ++ x :: post, (q.get tm d).nodes.deadline p = q.nodes.deadline p :=
    fun p hp => deadline_get_of_mem h htm (heq ▸ hp)
  refine ⟨pre, x, post, heq, push_of_seek ?_ ?_ hseek, fun p hp => ?_, ?_⟩
  · rw [h₁.l_eq, List.length_append]
    exact Nat.succ_ne_zero _
  · rw [h₁.tail_eq, List.getLast?_append]
    rfl
  · rw [← hmem p (by simp [hp])]
    exact hlater p hp
  · rwa [hmem x (by simp)] at hx

theorem perm_insert (pre post : List ℕ) (x tm : ℕ) :
    (pre ++ x :: tm :: post).Perm (tm :: (pre ++ x :: post)) := by
  have : ((pre ++ [x]) ++ tm :: post).Perm (tm :: ((pre ++ [x]) ++ post)) := List.perm_middle
  simpa using this

/-- A sorted list with a new entry behind `x`, the last one that is not later. -/
theorem pairwise_insert {f g : ℕ → ℤ} {t : ℤ} {pre post : List ℕ} {x : ℕ}
    (h : (pre ++ x :: post).Pairwise fun p p' => f p ≤ f p')
    (hg : ∀ p ∈ pre ++ x :: post, g p = f p) (htm : g tm = t) (hlater : ∀ p ∈ post, t < f p)
    (hx : f x ≤ t) :
    (pre ++ x :: tm :: post).Pairwise fun p p' => g p ≤ g p' := by
  have h' : (pre ++ x :: post).Pairwise fun p p' => g p ≤ g p' :=
    h.imp_of_mem fun ha hb hle => by rwa [hg _ ha, hg _ hb]
  have hgx : g x ≤ t := by rwa [hg x (by simp)]
  have hgpost : ∀ p ∈ post, t ≤ g p := fun p hp => by
    rw [hg p (by simp [hp])]
    exact (hlater p hp).le
  rw [List.pairwise_append, List.pairwise_cons] at h' ⊢
  obtain ⟨hpre, ⟨hxpost, hpost⟩, happart⟩ := h'
  refine ⟨hpre, ⟨?_, List.pairwise_cons.mpr ⟨fun p hp => htm ▸ hgpost p hp, hpost⟩⟩, ?_⟩
  · rintro p (_ | ⟨_, hp⟩)
    · rwa [htm]
    · exact hxpost p hp
  · intro a ha b hb
    have hax := happart a ha x List.mem_cons_self
    rcases List.mem_cons.mp hb with rfl | hb
    · exact hax
    · rcases List.mem_cons.mp hb with rfl | hb
      · exact hax.trans (htm ▸ hgx)
      · exact happart a ha b (List.mem_cons_of_mem _ hb)

/-- **A queue with a new entry behind `x`**, the last entry that is not later. -/
theorem Lists.insertBehind {pre post : List ℕ} {x : ℕ} (h : q.Lists (pre ++ x :: post))
    (htm : q.Available tm) (hlater : ∀ p ∈ post, d.t < (q.nodes.deadline p).t)
    (hx : (q.nodes.deadline x).t ≤ d.t) :
    (Queue.insertBehind { q.get tm d with l := q.l + 1 } tm x).Lists (pre ++ x :: tm :: post)
      ∧ (Queue.insertBehind { q.get tm d with l := q.l + 1 } tm x).nodes.deadline
        = Function.update q.nodes.deadline tm d := by
  have h₁ := h.get htm d
  have hnot := h.not_mem htm
  have hlinked : Linked { q.get tm d with l := q.l + 1 } (pre ++ x :: post) :=
    ⟨h₁.head_eq, h₁.tail_eq, h₁.threaded⟩
  obtain ⟨hdead, -, hl, hfresh, hpool⟩ := insertBehind_frame { q.get tm d with l := q.l + 1 } tm x
  replace hdead := hdead.trans (Nodes.deadline_setDeadline (m := q.nodes) (p := tm) (d := d))
  have hprev : (q.get tm d).nodes.prevOf x = post.head? := by
    have := (threaded_append.mp h₁.threaded).2.2.1
    rwa [Option.or_none] at this
  have hperm := perm_insert pre post x tm
  have hmem : ∀ p, p ∈ pre ++ x :: tm :: post ↔ p = tm ∨ p ∈ pre ++ x :: post := fun p => by
    rw [hperm.mem_iff, List.mem_cons]
  refine ⟨⟨hlinked.insertBehind h.nodup hnot, ?_, ?_, ?_, fun p hp => ?_, fun p hp => ?_, ?_, ?_⟩,
    hdead⟩
  · rw [hl, hperm.length_eq, List.length_cons, h.l_eq]
  · exact hperm.nodup_iff.mpr (List.nodup_cons.mpr ⟨hnot, h.nodup⟩)
  · rw [hdead]
    refine pairwise_insert h.sorted (fun p hp => ?_) ?_ hlater hx
    · have hne : p ≠ tm := fun heq => hnot (heq ▸ hp)
      rw [Function.update_of_ne hne]
    · rw [Function.update_self]
  · rw [hfresh]
    rcases (hmem p).mp hp with rfl | hp
    · exact lt_max_of_lt_right (Nat.lt_succ_self p)
    · exact h₁.lt_fresh p hp
  · rw [hmem, not_or] at hp
    have hpx : p ≠ x := fun heq => hp.2 (by simp [heq])
    have hpb : p ∉ (q.get tm d).nodes.prevOf x := fun hb => hp.2 (by
      rw [hprev] at hb
      simp [List.mem_of_mem_head? hb])
    have happart := insertBehind_apart (q := { q.get tm d with l := q.l + 1 }) hpx hp.1 hpb
    rw [happart.1, happart.2]
    exact h₁.clear p hp.2
  · rw [hpool]
    exact h₁.pool_nodup
  · intro p hp
    rw [hpool]
    rcases (hmem p).mp hp with rfl | hp
    · exact h.pool_nodup.not_mem_erase
    · exact h₁.not_mem_pool p hp

/-- The earliest entry is not later than the deadline `d`. -/
def Behind (q : Queue) (d : Deadline) : Prop :=
  ∀ p ∈ q.head, (q.nodes.deadline p).t ≤ d.t

instance (q : Queue) (d : Deadline) : Decidable (q.Behind d) :=
  inferInstanceAs (Decidable (∀ p ∈ q.head, _))

/-- **A push keeps the queue in order**, if the new entry is not the earliest. -/
theorem Lists.push (h : q.Lists ps) (htm : q.Available tm) (hd : q.Behind d) :
    ∃ q' ps', (q.get tm d).push tm = .ok q' ∧ q'.Lists ps'
      ∧ (q'.deadlines ps').Perm (q.deadlines ps ++ [d]) := by
  rcases eq_or_ne ps [] with rfl | hne
  · obtain ⟨q', hpush, h', hdead⟩ := h.push_nil htm d
    exact ⟨q', [tm], hpush, h', by simp [deadlines, hdead]⟩
  · obtain ⟨pre, x, post, rfl, hpush, hlater, hx⟩ := h.push_eq hne htm d
    replace hx : (q.nodes.deadline x).t ≤ d.t := by
      refine hx.elim id fun hpre => hd x ?_
      rw [h.head_eq, hpre]
      rfl
    have hkeep : toHead { q.get tm d with l := q.l + 1 } tm x
        = { q.get tm d with l := q.l + 1 } := by
      refine if_neg fun hno => not_lt.mpr hx ?_
      have hself : ((q.get tm d).nodes tm).t = d.t := congrArg Deadline.t deadline_get_self
      have hother : ((q.get tm d).nodes x).t = (q.nodes.deadline x).t :=
        congrArg Deadline.t (deadline_get_of_mem h htm (by simp))
      rw [← hself, ← hother]
      exact hno.2
    rw [hkeep] at hpush
    obtain ⟨h', hdead⟩ := h.insertBehind htm hlater hx
    refine ⟨_, _, hpush, h', ?_⟩
    have hsame : (pre ++ x :: post).map (Function.update q.nodes.deadline tm d)
        = q.deadlines (pre ++ x :: post) :=
      List.map_congr_left fun p hp => by
        have hne : p ≠ tm := fun heq => h.not_mem htm (heq ▸ hp)
        rw [Function.update_of_ne hne]
    have hperm := (perm_insert pre post x tm).map (Function.update q.nodes.deadline tm d)
    rw [List.map_cons, Function.update_self, hsame] at hperm
    rw [deadlines, hdead]
    exact hperm.trans (List.perm_append_singleton d _).symm

/-- **A push of a new earliest entry breaks the list**: behind it the head has a next node. -/
theorem Lists.push_early (h : q.Lists ps) (htm : q.Available tm) (hd : ¬ q.Behind d) :
    ∃ q', (q.get tm d).push tm = .ok q' ∧ ∀ ps', ¬ q'.Lists ps' := by
  simp only [Behind, not_forall, not_le] at hd
  obtain ⟨first, hfirst, hlt⟩ := hd
  rw [h.head_eq] at hfirst
  obtain ⟨rest, rfl⟩ := List.head?_eq_some_iff.mp hfirst
  obtain ⟨pre, x, post, heq, hpush, -, hx⟩ := h.push_eq (List.cons_ne_nil _ _) htm d
  -- every entry is later, so that the walk ends at the head
  have hall : ∀ p ∈ first :: rest, d.t < (q.nodes.deadline p).t := by
    intro p hp
    rcases List.mem_cons.mp hp with rfl | hp
    · exact hlt
    · exact hlt.trans_le ((List.pairwise_cons.mp h.sorted).1 p hp)
  obtain rfl : pre = [] := hx.resolve_left (not_le.mpr (hall x (by simp [heq])))
  obtain ⟨rfl, rfl⟩ := List.cons.inj heq
  refine ⟨_, hpush, fun ps' h' => ?_⟩
  have hnot := h.not_mem htm
  have hne : first ≠ tm := fun heq => hnot (by simp [heq])
  have h₁ := h.get htm d
  have htop : toHead { q.get tm d with l := q.l + 1 } tm first = { q.get tm d with
      l := q.l + 1
      head := some tm
      nodes := ((q.get tm d).nodes.setNext first (some tm)).setPrev tm (some first) } := by
    refine if_pos ⟨h₁.threaded.1, ?_⟩
    have hself : ((q.get tm d).nodes tm).t = d.t := congrArg Deadline.t deadline_get_self
    have hother : ((q.get tm d).nodes first).t = (q.nodes.deadline first).t :=
      congrArg Deadline.t (deadline_get_of_mem h htm List.mem_cons_self)
    exact hself.symm ▸ hother.symm ▸ hlt
  have hhead := h'.head_eq
  rw [(insertBehind_frame _ tm first).2.1, htop] at hhead
  obtain ⟨rest', rfl⟩ := List.head?_eq_some_iff.mp hhead.symm
  have hnext := h'.threaded.1
  rw [htop, nextOf_insertBehind] at hnext
  · cases hnext
  · have hprev : (q.get tm d).nodes.prevOf first = rest.head? := by
      have := h₁.threaded.2.1
      rwa [Option.or_none] at this
    simp only [Nodes.prevOf_setPrev, Nodes.prevOf_setNext, Function.update_of_ne hne, hprev]
    exact fun hmem => hnot (List.mem_cons_of_mem _ (List.mem_of_mem_head? hmem))

end Queue

end Treeless
