import Mathlib.Data.List.Basic
import Mathlib.Logic.Function.Basic

/-!
# Machinery/Thread — doubly linked lists as lists of pointers

    first                                     last
      p ----prev----> p' ----prev----> … ----> r ----prev----> `past`
`nx` <---next---- p <---next---- p'    …

`Threaded prev next nx ps past`: the pointers `ps` are linked in both directions, the first has
`nx` before it and the last has `past` behind it.  A thread is cut and joined as its list is
(`threaded_append`), and a change of pointers outside a thread does not touch it
(`Threaded.congr`).
-/

namespace Treeless

variable {α : Type*}

/-- The pointers `ps` are linked by `prev` and, backwards, by `next`. -/
def Threaded (prev next : α → Option α) : Option α → List α → Option α → Prop
  | _, [], _ => True
  | nx, p :: ps, past =>
    next p = nx ∧ prev p = ps.head?.or past ∧ Threaded prev next (some p) ps past

variable {prev next prev' next' : α → Option α} {nx past : Option α} {p q : α} {ps as bs : List α}

theorem threaded_append : ∀ {as : List α} {nx : Option α},
    Threaded prev next nx (as ++ bs) past
      ↔ Threaded prev next nx as (bs.head?.or past) ∧ Threaded prev next (as.getLast?.or nx) bs past
  | [], nx => by simp [Threaded]
  | a :: as, nx => by
      have hhead : (as ++ bs).head?.or past = as.head?.or (bs.head?.or past) := by
        rw [List.head?_append, Option.or_assoc]
      have hlast : as.getLast?.or (some a) = (a :: as).getLast?.or nx := by
        rw [List.getLast?_cons, Option.or_some]
        rfl
      rw [List.cons_append, Threaded, Threaded, hhead, threaded_append, hlast, and_assoc, and_assoc]

theorem Threaded.congr : ∀ {ps : List α} {nx : Option α}, Threaded prev next nx ps past →
    (∀ p ∈ ps, prev' p = prev p) → (∀ p ∈ ps, next' p = next p) → Threaded prev' next' nx ps past
  | [], _, _, _, _ => trivial
  | p :: _, _, h, hp, hn =>
      ⟨(hn p List.mem_cons_self).trans h.1, (hp p List.mem_cons_self).trans h.2.1,
        h.2.2.congr (fun q hq => hp q (List.mem_cons_of_mem _ hq))
          fun q hq => hn q (List.mem_cons_of_mem _ hq)⟩

/-- **A thread with another pointer before it.** -/
theorem Threaded.retop (h : Threaded prev next nx (p :: ps) past) {nx' : Option α}
    (hp : ∀ q ∈ p :: ps, prev' q = prev q) (hn : ∀ q ∈ ps, next' q = next q)
    (hself : next' p = nx') : Threaded prev' next' nx' (p :: ps) past :=
  ⟨hself, (hp p List.mem_cons_self).trans h.2.1,
    h.2.2.congr (fun q hq => hp q (List.mem_cons_of_mem _ hq)) hn⟩

/-- **A pointer `r` linked into a thread**, behind `p`. -/
theorem Threaded.insert {r : α} {pre post : List α}
    (h : Threaded prev next nx (pre ++ p :: post) past)
    (hpre : ∀ q ∈ pre, prev' q = prev q ∧ next' q = next q)
    (hself : prev' p = some r ∧ next' p = next p)
    (hnew : prev' r = post.head?.or past ∧ next' r = some p)
    (hpost : ∀ q ∈ post, prev' q = prev q)
    (hhead : ∀ q ∈ post.head?, next' q = some r) (htail : ∀ q ∈ post.tail, next' q = next q) :
    Threaded prev' next' nx (pre ++ p :: r :: post) past := by
  obtain ⟨hfront, hnext, -, hback⟩ := threaded_append.mp h
  refine threaded_append.mpr ⟨?_, hself.2.trans hnext, hself.1, hnew.2, hnew.1, ?_⟩
  · exact hfront.congr (fun q hq => (hpre q hq).1) fun q hq => (hpre q hq).2
  · cases post with
    | nil => trivial
    | cons b bs => exact hback.retop hpost htail (hhead b rfl)

/-- The pointers of a thread, as far as they can be followed. -/
def follow (prev : α → Option α) : ℕ → Option α → List α
  | 0, _ => []
  | _, none => []
  | n + 1, some p => p :: follow prev n (prev p)

/-- **Following `prev` from the first pointer of a thread visits the thread.** -/
theorem Threaded.follow_eq : ∀ {ps : List α} {nx : Option α}, Threaded prev next nx ps none →
    ∀ n, ps.length ≤ n → follow prev n ps.head? = ps
  | [], _, _, n, _ => by cases n <;> rfl
  | p :: ps, _, h, n + 1, hn => by
      rw [List.head?_cons, follow, h.2.1, Option.or_none,
        h.2.2.follow_eq n (Nat.le_of_succ_le_succ hn)]

end Treeless
