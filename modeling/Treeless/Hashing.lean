import Treeless.Machinery.Bytes

/-!
# Hashing — FNV-1a, and the hash words of the index

`fnv1a64` names a key's 64-bit hash, `getChunkID` its chunk.  The index keeps the low 32 bits, with
the two reserved codes moved out of the way (`hashReMap`).
-/

namespace Treeless

/-- The FNV-1a offset basis. -/
def offset64 : UInt64 := 14695981039346656037

/-- The FNV-1a prime. -/
def prime64 : UInt64 := 1099511628211

/-- The FNV-1a hash of `b`. -/
def fnv1a64 (b : Bytes) : UInt64 := b.foldl (fun h c => (h ^^^ c.toUInt64) * prime64) offset64

/-- The chunk a key belongs to. -/
def getChunkID (b : Bytes) (numChunks : ℕ) : ℕ := (fnv1a64 b >>> 32).toNat % numChunks

/-- A bucket never used. -/
def emptyBucket : UInt32 := 0

/-- A bucket whose pair was deleted. -/
def deletedBucket : UInt32 := 1

/-- The hash word of a key: the two reserved codes are moved to `2` and `3`. -/
def hashReMap (h : UInt32) : UInt32 := if h < 2 then h + 2 else h

theorem two_le_hashReMap (h : UInt32) : 2 ≤ hashReMap h := by
  rw [hashReMap]
  split
  · next hlt =>
    rw [UInt32.le_iff_toNat_le, UInt32.toNat_add]
    rw [UInt32.lt_iff_toNat_lt] at hlt
    have h2 : (2 : UInt32).toNat = 2 := rfl
    omega
  · next hge => exact UInt32.not_lt.mp hge

theorem hashReMap_of_two_le {h : UInt32} (hh : 2 ≤ h) : hashReMap h = h :=
  if_neg (UInt32.not_lt.mpr hh)

/-- The reserved codes are `0` and `1`. -/
theorem reserved_of_not_two_le {h : UInt32} (hh : ¬ 2 ≤ h) : h = 0 ∨ h = 1 := by
  rw [UInt32.le_iff_toNat_le] at hh
  rw [← UInt32.toNat_inj, ← UInt32.toNat_inj]
  have h2 : (2 : UInt32).toNat = 2 := rfl
  have h1 : (1 : UInt32).toNat = 1 := rfl
  have h0 : (0 : UInt32).toNat = 0 := rfl
  omega

end Treeless
