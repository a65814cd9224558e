import Mathlib.Logic.Function.Basic
import Treeless.Machinery.Guard

/-!
# Dist/Reconnect — the connections of a server, one after the other

A `VirtualServer` has one TCP connection at a time.  `needConnection` makes it when there is none,
and `freeConn` closes it.  When the reader of a connection fails it calls `onClose`, once, and that
is `freeConn` again:

    reader   reading ──► calling ──onClose──► ended

`freeConn` closes the connection that the server has when it is called.  If the server has made
another one since, that is not the one whose reader failed.
-/

namespace Treeless

/-- Where the reader goroutine of a connection is. -/
inductive ReaderAt
  | reading
  /-- `Read` has failed, and `onClose` has not returned. -/
  | calling
  | ended
  deriving DecidableEq, Repr

/-- Who closed a connection. -/
inductive Closer
  /-- `DeadServer`, `RemoveServer` or `Stop`. -/
  | group
  /-- The callback of a connection. -/
  | onClose (a : ℕ)
  deriving DecidableEq, Repr

/-- A connection, by its number. -/
structure Link where
  reader : ReaderAt
  closedBy : Option Closer
  deriving DecidableEq, Repr

/-- A server and the connections it has made, the first `made` of `links`. -/
structure Reconnect where
  conn : Option ℕ
  made : ℕ
  links : ℕ → Link

namespace Reconnect

/-- A server that has made no connection. -/
def new : Reconnect := ⟨none, 0, fun _ => ⟨.reading, none⟩⟩

inductive Event
  /-- `needConnection` dials. -/
  | dial (ok : Bool)
  /-- `freeConn` of `DeadServer`, `RemoveServer` or `Stop`. -/
  | free
  /-- `Read` fails: the connection has been closed, here or by the peer. -/
  | fail (a : ℕ)
  | onClose (a : ℕ)

variable (s : Reconnect)

/-- `freeConn`. -/
def freeConn (closer : Closer) : Reconnect :=
  match s.conn with
  | some b => { s with
    conn := none
    links := Function.update s.links b { s.links b with closedBy := some closer } }
  | none => s

/-- Moves the reader of a connection. -/
def setReader (a : ℕ) (r : ReaderAt) : Reconnect :=
  { s with links := Function.update s.links a { s.links a with reader := r } }

/-- The server after an event; `none` if it cannot happen. -/
def next : Event → Option Reconnect
  | .dial ok =>
    match s.conn with
    | none => some (if ok then { s with
        conn := some s.made
        made := s.made + 1
        links := Function.update s.links s.made ⟨.reading, none⟩ }
      else s)
    | some _ => none
  | .free => some (s.freeConn .group)
  | .fail a =>
    if a < s.made ∧ (s.links a).reader = .reading then some (s.setReader a .calling) else none
  | .onClose a =>
    if a < s.made ∧ (s.links a).reader = .calling then
      some ((s.freeConn (.onClose a)).setReader a .ended)
    else none

/-- The steps of a server. -/
def Step (s : Reconnect) (ev : Event) (s' : Reconnect) : Prop := s.next ev = some s'

/-- **The callback of a connection has closed a later one.** -/
def Crossed (s : Reconnect) : Prop := ∃ a b, a < b ∧ (s.links b).closedBy = some (.onClose a)

/-- A connection is made only when the callbacks of all earlier ones have returned. -/
def Settled (s : Reconnect) : Event → Prop
  | .dial true => ∀ a < s.made, (s.links a).reader = .ended
  | _ => True

/-- What settled steps keep: the callbacks of all connections earlier than the server's have
returned, and no callback has closed a later connection. -/
structure Orderly (s : Reconnect) : Prop where
  earlier : ∀ b, s.conn = some b → ∀ a < b, (s.links a).reader = .ended
  uncrossed : ¬ s.Crossed

theorem orderly_new : new.Orderly := by
  refine ⟨fun b h => (by cases h), ?_⟩
  rintro ⟨a, b, -, h⟩
  cases h

theorem conn_freeConn (closer : Closer) : (s.freeConn closer).conn = none := by
  rw [freeConn]
  split
  · rfl
  · next h => exact h

theorem closedBy_setReader (a : ℕ) (r : ReaderAt) (b : ℕ) :
    ((s.setReader a r).links b).closedBy = (s.links b).closedBy := by
  dsimp only [setReader]
  rw [Function.update_apply]
  split
  · next h => rw [h]
  · rfl

variable {s}

/-- A callback that does not find a later connection closes none. -/
theorem Orderly.uncrossed_freeConn (h : s.Orderly) {closer : Closer}
    (hown : ∀ a b, closer = .onClose a → s.conn = some b → b ≤ a) :
    ¬ (s.freeConn closer).Crossed := by
  rintro ⟨a, b, hab, hclosed⟩
  rw [freeConn] at hclosed
  split at hclosed
  · next b' hb' =>
    dsimp only at hclosed
    rw [Function.update_apply] at hclosed
    split at hclosed
    · next hb =>
      have := hown a b' (Option.some.inj hclosed) hb'
      omega
    · exact h.uncrossed ⟨a, b, hab, hclosed⟩
  · exact h.uncrossed ⟨a, b, hab, hclosed⟩

theorem uncrossed_setReader (a : ℕ) (r : ReaderAt) (h : ¬ s.Crossed) :
    ¬ (s.setReader a r).Crossed := by
  rintro ⟨a', b, hab, hclosed⟩
  rw [closedBy_setReader] at hclosed
  exact h ⟨a', b, hab, hclosed⟩

/-- A server without a connection. -/
theorem orderly_of_none (hnone : s.conn = none) (h : ¬ s.Crossed) : s.Orderly := by
  refine ⟨fun b hb => ?_, h⟩
  rw [hnone] at hb
  cases hb

/-- A connection made when the callbacks of all earlier ones have returned. -/
theorem Orderly.dial (h : s.Orderly) (hended : ∀ a < s.made, (s.links a).reader = .ended) :
    ({ s with
      conn := some s.made
      made := s.made + 1
      links := Function.update s.links s.made ⟨.reading, none⟩ } : Reconnect).Orderly := by
  refine ⟨fun b hb a ha => ?_, ?_⟩
  · cases hb
    dsimp only
    rw [Function.update_of_ne (Nat.ne_of_lt ha)]
    exact hended a ha
  · rintro ⟨a, b, hab, hclosed⟩
    dsimp only at hclosed
    rw [Function.update_apply] at hclosed
    split at hclosed
    · cases hclosed
    · exact h.uncrossed ⟨a, b, hab, hclosed⟩

/-- **Settled steps keep the order.** -/
theorem Orderly.step {s' : Reconnect} {ev : Event} (h : s.Orderly) (hsettled : s.Settled ev)
    (hs : s.Step ev s') : s'.Orderly := by
  cases ev with
  | dial ok =>
    rw [Step, next] at hs
    split at hs
    · next hnone =>
      cases ok with
      | false =>
        cases hs
        exact h
      | true =>
        rw [if_pos rfl] at hs
        cases hs
        exact h.dial hsettled
    · cases hs
  | free =>
    cases hs
    exact orderly_of_none (s.conn_freeConn .group)
      (h.uncrossed_freeConn fun a b hcl => (by cases hcl))
  | fail a =>
    rw [Step, next] at hs
    split at hs
    · next ha =>
      cases hs
      refine ⟨fun b hb a' ha' => ?_, uncrossed_setReader a _ h.uncrossed⟩
      have hend := h.earlier b hb a' ha'
      have hne : a' ≠ a := fun heq => by
        rw [heq, ha.2] at hend
        cases hend
      dsimp only [setReader]
      rw [Function.update_of_ne hne]
      exact hend
    · cases hs
  | onClose a =>
    rw [Step, next] at hs
    split at hs
    · next ha =>
      cases hs
      refine orderly_of_none (s.conn_freeConn (.onClose a))
        (uncrossed_setReader a _ (h.uncrossed_freeConn fun a' b hcl hb => ?_))
      cases hcl
      by_contra hlt
      have hend := h.earlier b hb a (by omega)
      rw [ha.2] at hend
      cases hend
    · cases hs

/-- The callback of an earlier connection than the server's closes the server's. -/
theorem leadsTo_of_calling {a b : ℕ} (ha : a < s.made) (hab : a < b) (hb : s.conn = some b)
    (hcalling : (s.links a).reader = .calling) : LeadsTo Step Settled Crossed s := by
  have hstep : s.Step (.onClose a) ((s.freeConn (.onClose a)).setReader a .ended) :=
    if_pos ⟨ha, hcalling⟩
  refine .cons (a := .onClose a) trivial hstep (.now ⟨a, b, hab, ?_⟩)
  rw [closedBy_setReader, freeConn, hb]
  dsimp only
  rw [Function.update_self]

/-- A callback that has not returned, of an earlier connection than the server's. -/
theorem leadsTo_of_pending {a b : ℕ} (ha : a < s.made) (hab : a < b) (hb : s.conn = some b)
    (hpending : (s.links a).reader ≠ .ended) : LeadsTo Step Settled Crossed s := by
  cases hr : (s.links a).reader with
  | reading =>
    have hstep : s.Step (.fail a) (s.setReader a .calling) := if_pos ⟨ha, hr⟩
    refine .cons (a := .fail a) trivial hstep (leadsTo_of_calling (a := a) (b := b) ha hab hb ?_)
    dsimp only [setReader]
    rw [Function.update_self]
  | calling => exact leadsTo_of_calling ha hab hb hr
  | ended => exact (hpending hr).elim

/-- **A connection made too early** may be closed by the callback of an earlier one. -/
theorem leadsTo_of_not_settled {s' : Reconnect} {ev : Event} (hsettled : ¬ s.Settled ev)
    (hs : s.Step ev s') : LeadsTo Step Settled Crossed s' := by
  cases ev with
  | dial ok =>
    cases ok with
    | false => exact absurd trivial hsettled
    | true =>
      rw [Settled] at hsettled
      push Not at hsettled
      obtain ⟨a, ha, hpending⟩ := hsettled
      rw [Step, next] at hs
      split at hs
      · rw [if_pos rfl] at hs
        cases hs
        refine leadsTo_of_pending (Nat.lt_succ_of_lt ha) ha rfl ?_
        dsimp only
        rwa [Function.update_of_ne (Nat.ne_of_lt ha)]
      · cases hs
  | _ => exact absurd trivial hsettled

/-- **A close callback closes its own connection.**  A later connection is never closed as long as
each one is made when the callbacks of all earlier ones have returned; and each one that is made
before that can be closed by the callback of an earlier one. -/
theorem callback_closes_own_iff {evs : List Event} {s : Reconnect}
    (hrun : Run (Guarded Step Settled) new evs s) : ¬ s.Crossed
      ∧ ∀ ev s', s.Step ev s' → (s.Settled ev ↔ ¬ LeadsTo Step Settled Crossed s') := by
  have hexact : ExactGuard Step Settled Crossed new :=
    .of_invariant orderly_new Orderly.step Orderly.uncrossed
      fun _ hsettled hs => leadsTo_of_not_settled hsettled hs
  exact hexact evs s hrun

/-- A server declared dead, and connected again when the callback of the first connection has
returned. -/
theorem callback_closes_own_iff_redial : ∃ s,
    Run (Guarded Step Settled) new [.dial true, .free, .fail 0, .onClose 0, .dial true] s
    ∧ ¬ s.Crossed
    ∧ ∀ ev s', s.Step ev s' → (s.Settled ev ↔ ¬ LeadsTo Step Settled Crossed s') := by
  have hnone : ∀ a < 0, (new.links a).reader = .ended := fun a ha => absurd ha a.not_lt_zero
  obtain ⟨s, hrun⟩ : ∃ s, Run (Guarded Step Settled) new
      [.dial true, .free, .fail 0, .onClose 0, .dial true] s := by
    refine ⟨_, .cons ⟨hnone, rfl⟩ (.cons ⟨trivial, rfl⟩ (.cons ⟨trivial, rfl⟩
      (.cons ⟨trivial, rfl⟩ (.cons ⟨fun a ha => ?_, rfl⟩ (.refl _)))))⟩
    obtain rfl : a = 0 := Nat.lt_one_iff.mp ha
    rfl
  exact ⟨s, hrun, callback_closes_own_iff hrun⟩

/-- **A server declared dead, and connected again**: the callback of the first connection comes
late, and closes the second. -/
theorem late_callback_crosses : ∃ s,
    Run Step new [.dial true, .free, .fail 0, .dial true, .onClose 0] s ∧ s.Crossed :=
  ⟨_, Run.of_foldlM rfl, 0, 1, by decide, rfl⟩

end Reconnect

end Treeless
