import Treeless.Hashing

/-!
# PMap/Checksum — timestamps, and the three-window checksum

A value starts with eight bytes of timestamp: nanoseconds since the epoch, a signed 64-bit
little-endian word.  `SyncChecksum` keeps a running sum of the deltas it is given and two older
copies of it, moved forward when a delta's time passes the newest window.
-/

namespace Treeless

/-- A point in time, in nanoseconds since the epoch. -/
abbrev Time := ℤ

/-- The 64-bit word the first eight bytes of a value spell. -/
def uint64 (b : Bytes) : UInt64 := UInt64.ofNat (leNat (b.take 8))

/-- The time the first eight bytes of a value spell, as a signed number. -/
def unixTime (b : Bytes) : Time := (uint64 b).toInt64.toInt

theorem uint64_take (v : Bytes) : uint64 (v.take 8) = uint64 v := by
  rw [uint64, uint64, List.take_take, Nat.min_self]

theorem unixTime_take (v : Bytes) : unixTime (v.take 8) = unixTime v := by
  rw [unixTime, unixTime, uint64_take]

/-- A word below `2 ^ 63` spells itself. -/
theorem unixTime_eq_leNat {b : Bytes} (h : leNat (b.take 8) < 2 ^ 63) :
    unixTime b = leNat (b.take 8) := by
  rw [unixTime, uint64]
  generalize leNat (b.take 8) = n at h
  have hnat : (BitVec.ofNat 64 n).toNat = n := by
    rw [BitVec.toNat_ofNat]
    omega
  change (BitVec.ofNat 64 n).toInt = n
  rw [BitVec.toInt_eq_toNat_of_lt (by omega), hnat]

/-- The zero value of a time: the first of January of year one. -/
def zeroTime : Time := -62135596800 * 1000000000

/-- The start of the second after `t`. -/
def nextSecond (t : Time) : Time := (t / 1000000000 + 1) * 1000000000

structure SyncChecksum where
  newChecksum : UInt64
  mediumChecksum : UInt64
  oldChecksum : UInt64
  newTime : Time
  mediumTime : Time
  oldTime : Time
  deriving DecidableEq, Repr

namespace SyncChecksum

/-- The zero value of a checksum. -/
def zero : SyncChecksum := ⟨0, 0, 0, zeroTime, zeroTime, zeroTime⟩

/-- Moves the windows forward past `t`. -/
def shift (s : SyncChecksum) (t : Time) : SyncChecksum :=
  if s.newTime < t then
    { s with
      oldTime := s.mediumTime
      mediumTime := s.newTime
      newTime := nextSecond t
      oldChecksum := s.mediumChecksum
      mediumChecksum := s.newChecksum }
  else s

/-- Adds the delta `el`, made at time `t`. -/
def sum (s : SyncChecksum) (el : UInt64) (t : Time) : SyncChecksum :=
  let s := s.shift t
  { s with
    newChecksum := s.newChecksum + el
    mediumChecksum := if t < s.mediumTime then s.mediumChecksum + el else s.mediumChecksum
    oldChecksum := if t < s.oldTime then s.oldChecksum + el else s.oldChecksum }

/-- Takes the delta `el` back, at time `t`. -/
def sub (s : SyncChecksum) (el : UInt64) (t : Time) : SyncChecksum := s.sum (-el) t

@[simp] theorem newChecksum_sum (s : SyncChecksum) (el : UInt64) (t : Time) :
    (s.sum el t).newChecksum = s.newChecksum + el := by
  simp only [sum, shift]
  split <;> rfl

@[simp] theorem newChecksum_sub (s : SyncChecksum) (el : UInt64) (t : Time) :
    (s.sub el t).newChecksum = s.newChecksum - el := by
  rw [sub, newChecksum_sum, UInt64.sub_eq_add_neg]

end SyncChecksum

end Treeless
