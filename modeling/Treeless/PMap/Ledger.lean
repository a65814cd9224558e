import Treeless.PMap.Log
import Treeless.PMap.Checksum
import Mathlib.Logic.Function.Basic

/-!
# PMap/Ledger — what a `PMap` is for

The reference behaviour, with no buckets and no bytes: a `Ledger` is the list of records written so
far, the dictionary they stand for, the checksum and the count of deleted bytes.  `Ledger.answer`
says which error a request meets, `Ledger.apply` what it leaves behind.

A request for an absent key inserts; a `Set` on a present one replaces an older value, a `CAS` the
value it names, and a `Del` removes a value that is not newer than itself.
-/

namespace Treeless

/-- The dictionary a `PMap` stands for: a key's value, timestamp included. -/
abbrev Dict := Bytes → Option Bytes

/-- A request to a `PMap`. -/
inductive Op
  | set (key value : Bytes)
  | cas (key value : Bytes)
  | del (key value : Bytes)
  deriving DecidableEq, Repr

namespace Op

def key : Op → Bytes
  | set k _ => k
  | cas k _ => k
  | del k _ => k

/-- The record a request writes, if it writes one. -/
def record : Op → Record
  | set k v => ⟨k, v⟩
  | cas k v => ⟨k, v.drop 16⟩
  | del k _ => ⟨k, []⟩

/-- A `Del` brings a timestamp. -/
def Timed : Op → Prop
  | del _ v => 8 ≤ v.length
  | _ => True

instance : DecidablePred Timed
  | set _ _ => inferInstanceAs (Decidable True)
  | cas _ _ => inferInstanceAs (Decidable True)
  | del _ v => inferInstanceAs (Decidable (8 ≤ v.length))

end Op

namespace Dict

/-- **The reference map**: what a request that met the error `e` makes of the dictionary. -/
def step (m : Dict) : Op × Option Error → Dict
  | (.set k v, none) =>
    match m k with
    | none => Function.update m k (some v)
    | some old => if unixTime old < unixTime v then Function.update m k (some v) else m
  | (.cas k v, none) => Function.update m k (some (v.drop 16))
  | (.del k v, _) =>
    match m k with
    | none => m
    | some old => if unixTime v < unixTime old then m else Function.update m k none
  | (_, some _) => m

/-- A request changes nothing but its key. -/
theorem step_of_ne (m : Dict) {op : Op} (e : Option Error) {key : Bytes} (h : key ≠ op.key) :
    m.step (op, e) key = m key := by
  cases op with
  | set k v =>
    cases e with
    | some e => rfl
    | none =>
      simp only [step]
      cases m k with
      | none => exact Function.update_of_ne h _ _
      | some o =>
        simp only [ite_apply]
        split
        · exact Function.update_of_ne h _ _
        · rfl
  | cas k v =>
    cases e with
    | some e => rfl
    | none => exact Function.update_of_ne h _ _
  | del k v =>
    simp only [step]
    cases m k with
    | none => rfl
    | some o =>
      simp only [ite_apply]
      split
      · rfl
      · exact Function.update_of_ne h _ _

end Dict

/-- The records written, the dictionary, the checksum and the bytes deleted. -/
structure Ledger where
  size : ℕ
  log : List Record
  dict : Dict
  checksum : SyncChecksum
  deleted : ℕ

namespace Ledger

/-- The ledger of a new `PMap`. -/
def new (size : ℕ) : Ledger := ⟨size, [], fun _ => none, .zero, 0⟩

variable (hash : Bytes → UInt64) (L : Ledger)

/-- There is room for the record of a pair. -/
def Room (k v : Bytes) : Prop := logSize L.log + (Record.mk k v).size < L.size

instance (k v : Bytes) : Decidable (L.Room k v) := inferInstanceAs (Decidable (_ < _))

/-- Takes the value of a key out of the checksum, at time `t`. -/
def retract (k : Bytes) (t : Time) : SyncChecksum :=
  match L.dict k with
  | none => L.checksum
  | some old => L.checksum.sub (hash k ^^^ uint64 old) t

/-- Writes the record of a pair. -/
def write (k v : Bytes) : Ledger :=
  { L with
    log := L.log ++ [⟨k, v⟩]
    dict := Function.update L.dict k (some v)
    checksum := (L.retract hash k (unixTime v)).sum (hash k ^^^ uint64 v) (unixTime v) }

/-- Removes the value `old` of a key, at time `t`. -/
def erase (k old : Bytes) (t : Time) : Ledger :=
  { L with
    dict := Function.update L.dict k none
    checksum := L.checksum.sub (hash k ^^^ uint64 old) t
    deleted := L.deleted + (12 + k.length + old.length) }

/-- Writes a tombstone. -/
def bury (k : Bytes) : Ledger := { L with log := L.log ++ [⟨k, []⟩] }

/-- The answer of a `put`. -/
def putAnswer (k v : Bytes) : Option Error := if L.Room k v then none else some .storeLimit

/-- The tests of a `CAS`, on the value stored. -/
def casTest : Option Bytes → Bytes → Option Error
  | none, v =>
    if unixTime v ≠ 0 ∧ uint64 (v.drop 8) ≠ fnv1a64 [] then some .casEmptyPair else none
  | some old, v =>
    if unixTime old ≠ unixTime v then some .casTimestamp
    else if uint64 (v.drop 8) ≠ fnv1a64 (old.drop 8) then some .casHash
    else none

theorem casTest_ne_storeLimit (stored : Option Bytes) (v : Bytes) :
    casTest stored v ≠ some .storeLimit := by
  cases stored <;> simp only [casTest] <;> repeat' split
  all_goals simp only [ne_eq, Option.some.injEq, reduceCtorEq, not_false_eq_true]

theorem unixTime_of_casTest {old v : Bytes} (h : casTest (some old) v = none) :
    unixTime old = unixTime v := by
  by_contra hne
  rw [casTest, if_pos hne] at h
  cases h

/-- The error a request meets; `full` says that the bucket array is at its limit. -/
def answer (full : Bool) : Op → Option Error
  | .set k v =>
    if v.length < 8 then some .setValueLen
    else if full then some .hashMapLimit
    else match L.dict k with
      | none => L.putAnswer k v
      | some old => if unixTime v ≤ unixTime old then none else L.putAnswer k v
  | .cas k v =>
    if v.length < 24 then some .casValueLen
    else if full then some .hashMapLimit
    else match casTest (L.dict k) v with
      | some e => some e
      | none => L.putAnswer k (v.drop 16)
  | .del k v =>
    match L.dict k with
    | none => none
    | some old => if unixTime v < unixTime old then none else L.putAnswer k []

theorem answer_set {full : Bool} (hfull : full = false) {k v : Bytes} (hv : ¬ v.length < 8) :
    L.answer full (.set k v) = match L.dict k with
      | none => L.putAnswer k v
      | some old => if unixTime v ≤ unixTime old then none else L.putAnswer k v := by
  rw [answer, if_neg hv, hfull, if_neg Bool.false_ne_true]

theorem answer_cas {full : Bool} (hfull : full = false) {k v : Bytes} (hv : ¬ v.length < 24) :
    L.answer full (.cas k v) = match casTest (L.dict k) v with
      | some e => some e
      | none => L.putAnswer k (v.drop 16) := by
  rw [answer, if_neg hv, hfull, if_neg Bool.false_ne_true]

/-- What a request that met the error `e` leaves behind. -/
def apply : Op × Option Error → Ledger
  | (.set k v, none) =>
    match L.dict k with
    | none => L.write hash k v
    | some old => if unixTime v ≤ unixTime old then L else L.write hash k v
  | (.cas k v, none) => L.write hash k (v.drop 16)
  -- a denied `CAS` on a present key has already taken the old value out of the checksum
  | (.cas k v, some .storeLimit) => { L with checksum := L.retract hash k (unixTime (v.drop 16)) }
  | (.del k v, e) =>
    match L.dict k with
    | none => L
    | some old =>
      if unixTime v < unixTime old then L
      else
        let L := L.erase hash k old (unixTime v)
        if e = none then L.bury k else L
  | (_, some _) => L

/-- **The dictionary of a ledger is the reference map.** -/
theorem dict_apply (ev : Op × Option Error) : (L.apply hash ev).dict = L.dict.step ev := by
  obtain ⟨op, e⟩ := ev
  cases op with
  | set k v =>
    cases e with
    | some e => rfl
    | none =>
      simp only [apply, Dict.step]
      cases L.dict k with
      | none => rfl
      | some old =>
        by_cases hlt : unixTime old < unixTime v
        · simp only [if_pos hlt, if_neg (not_le.mpr hlt)]
          rfl
        · simp only [if_neg hlt, if_pos (not_lt.mp hlt)]
  | cas k v =>
    cases e with
    | none => rfl
    | some e => cases e <;> rfl
  | del k v =>
    simp only [apply, Dict.step]
    cases L.dict k with
    | none => rfl
    | some old =>
      by_cases hlt : unixTime v < unixTime old
      · simp only [if_pos hlt]
      · simp only [if_neg hlt]
        split <;> rfl

theorem size_apply (ev : Op × Option Error) : (L.apply hash ev).size = L.size := by
  obtain ⟨op, e⟩ := ev
  cases op <;> rcases e with _ | e <;> simp only [apply] <;> (try cases e) <;> repeat' split
  all_goals rfl

/-- What a request can do to a ledger. -/
inductive Effect (hash : Bytes → UInt64) (L : Ledger) : Op → Option Error → Ledger → Prop
  | same (op : Op) (e : Option Error) : Effect hash L op e L
  | set {k v : Bytes} : 8 ≤ v.length → L.Room k v →
      (∀ old, L.dict k = some old → unixTime old < unixTime v) →
      Effect hash L (.set k v) none (L.write hash k v)
  | cas {k v : Bytes} : 8 ≤ (v.drop 16).length → L.Room k (v.drop 16) →
      casTest (L.dict k) v = none → Effect hash L (.cas k v) none (L.write hash k (v.drop 16))
  | spoil {k v old : Bytes} : L.dict k = some old → ¬ L.Room k (v.drop 16) →
      Effect hash L (.cas k v) (some .storeLimit)
        { L with checksum := L.retract hash k (unixTime (v.drop 16)) }
  | bury {k v old : Bytes} : L.dict k = some old → unixTime old ≤ unixTime v → L.Room k [] →
      Effect hash L (.del k v) none ((L.erase hash k old (unixTime v)).bury k)
  | erase {k v old : Bytes} : L.dict k = some old → unixTime old ≤ unixTime v → ¬ L.Room k [] →
      Effect hash L (.del k v) (some .storeLimit) (L.erase hash k old (unixTime v))

/-- A request adds its own record to the log, or none. -/
theorem Effect.mem_log {hash : Bytes → UInt64} {L L' : Ledger} {op : Op} {e : Option Error}
    (heff : L.Effect hash op e L') {r : Record} (hr : r ∈ L'.log) :
    r ∈ L.log ∨ (e = none ∧ r = op.record) := by
  have hsnoc : ∀ r', r ∈ L.log ++ [r'] → r ∈ L.log ∨ r = r' := fun r' hr =>
    (List.mem_append.mp hr).imp_right List.mem_singleton.mp
  cases heff with
  | same => exact Or.inl hr
  | set _ _ _ => exact (hsnoc _ hr).imp_right fun h => ⟨rfl, h⟩
  | cas _ _ _ => exact (hsnoc _ hr).imp_right fun h => ⟨rfl, h⟩
  | spoil => exact Or.inl hr
  | bury _ _ _ => exact (hsnoc _ hr).imp_right fun h => ⟨rfl, h⟩
  | erase => exact Or.inl hr

theorem effect_set (full : Bool) (k v : Bytes) :
    L.Effect hash (.set k v) (L.answer full (.set k v))
      (L.apply hash (.set k v, L.answer full (.set k v))) := by
  by_cases hv : v.length < 8
  · simp only [answer, if_pos hv]
    exact .same _ _
  cases full with
  | true =>
    simp only [answer, if_neg hv, if_true]
    exact .same _ _
  | false =>
    rw [L.answer_set rfl hv]
    cases hk : L.dict k with
    | none =>
      simp only [putAnswer]
      split
      · next hroom =>
        simp only [apply, hk]
        exact .set (not_lt.mp hv) hroom fun old h => by rw [hk] at h; cases h
      · exact .same _ _
    | some old =>
      by_cases hle : unixTime v ≤ unixTime old
      · simp only [if_pos hle, apply, hk]
        exact .same _ _
      simp only [if_neg hle, putAnswer]
      split
      · next hroom =>
        simp only [apply, hk, if_neg hle]
        exact .set (not_lt.mp hv) hroom fun old' h => by
          obtain rfl := Option.some.inj (hk.symm.trans h)
          exact not_le.mp hle
      · exact .same _ _

theorem effect_cas (full : Bool) (k v : Bytes) :
    L.Effect hash (.cas k v) (L.answer full (.cas k v))
      (L.apply hash (.cas k v, L.answer full (.cas k v))) := by
  by_cases hv : v.length < 24
  · simp only [answer, if_pos hv]
    exact .same _ _
  cases full with
  | true =>
    simp only [answer, if_neg hv, if_true]
    exact .same _ _
  | false =>
    rw [L.answer_cas rfl hv]
    cases htest : casTest (L.dict k) v with
    | some e =>
      have hne : e ≠ .storeLimit := fun h => casTest_ne_storeLimit _ _ (h ▸ htest)
      cases e <;> first | exact absurd rfl hne | exact .same _ _
    | none =>
      simp only [putAnswer]
      split
      · next hroom => exact .cas (by rw [List.length_drop]; omega) hroom htest
      · next hroom =>
        cases hk : L.dict k with
        | none =>
          simp only [apply, retract, hk]
          exact .same _ _
        | some old => exact .spoil hk hroom

theorem effect_del (full : Bool) (k v : Bytes) :
    L.Effect hash (.del k v) (L.answer full (.del k v))
      (L.apply hash (.del k v, L.answer full (.del k v))) := by
  rcases Option.eq_none_or_eq_some (L.dict k) with hk | ⟨old, hk⟩
  · simp only [answer, apply, hk]
    exact .same _ _
  · by_cases hlt : unixTime v < unixTime old
    · simp only [answer, apply, hk, if_pos hlt]
      exact .same _ _
    simp only [answer, apply, hk, if_neg hlt, putAnswer]
    by_cases hroom : L.Room k []
    · simp only [if_pos hroom, if_true]
      exact .bury hk (not_lt.mp hlt) hroom
    · simp only [if_neg hroom, reduceCtorEq, if_false]
      exact .erase hk (not_lt.mp hlt) hroom

/-- **Every request does one of these.** -/
theorem effect (full : Bool) (op : Op) :
    L.Effect hash op (L.answer full op) (L.apply hash (op, L.answer full op)) := by
  cases op with
  | set k v => exact L.effect_set hash full k v
  | cas k v => exact L.effect_cas hash full k v
  | del k v => exact L.effect_del hash full k v

end Ledger

end Treeless
