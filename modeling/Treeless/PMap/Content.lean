import Treeless.Machinery.Tally
import Treeless.PMap.Runs
import Mathlib.Data.UInt

/-!
# PMap/Content — the checksum is a sum over the live keys

The newest accumulator of the checksum is, modulo `2 ^ 64`, the sum over the live keys of the hash
of the key xor the timestamp of its pair: a record written adds the term of its pair and takes back
the term of the pair it replaces, a deletion takes back the term of the pair it removes.  It does
not depend on the requests that led to the content (`newChecksum_content`).
-/

namespace Treeless

/-- The term of a pair in the checksum. -/
def checksumTerm (hash : Bytes → UInt64) (k v : Bytes) : UInt64 := hash k ^^^ uint64 v

namespace Ledger

variable {hash : Bytes → UInt64} {L L' : Ledger} {op : Op} {e : Option Error}

/-- The newest accumulator is the sum over the live keys. -/
def Balanced (hash : Bytes → UInt64) (L : Ledger) : Prop :=
  Tally (checksumTerm hash) L.dict L.checksum.newChecksum

theorem balanced_new (hash : Bytes → UInt64) (size : ℕ) : (new size).Balanced hash := .empty _

theorem newChecksum_retract (hash : Bytes → UInt64) (L : Ledger) (k : Bytes) (t : Time) :
    (L.retract hash k t).newChecksum
      = L.checksum.newChecksum - entryWeight (checksumTerm hash) L.dict k := by
  rw [retract, entryWeight]
  cases L.dict k with
  | none => exact (sub_zero _).symm
  | some old => exact SyncChecksum.newChecksum_sub _ _ _

namespace Balanced

theorem write (h : L.Balanced hash) (k v : Bytes) : (L.write hash k v).Balanced hash := by
  rw [Balanced, Ledger.write, SyncChecksum.newChecksum_sum, newChecksum_retract]
  exact h.update k (some v)

theorem erase (h : L.Balanced hash) {k old : Bytes} (hk : L.dict k = some old) (t : Time) :
    (L.erase hash k old t).Balanced hash := by
  have hupd := h.update k none
  rw [entryWeight, hk, Option.elim_none, add_zero] at hupd
  rw [Balanced, Ledger.erase, SyncChecksum.newChecksum_sub]
  exact hupd

/-- **One request**, with no `put` denied. -/
theorem effect (h : L.Balanced hash) (heff : L.Effect hash op e L') (hput : e ≠ some .storeLimit) :
    L'.Balanced hash := by
  cases heff with
  | same => exact h
  | set => exact h.write _ _
  | cas => exact h.write _ _
  | spoil => exact absurd rfl hput
  | bury hk => exact h.erase hk _
  | erase => exact absurd rfl hput

end Balanced

end Ledger

namespace PMap

variable {hash : Bytes → UInt64} {path : String} {size : ℕ} {c : PMap}
  {evs : List (Op × Option Error)}

/-- Along every run with no `put` denied the accumulator is the sum over the live keys. -/
theorem tally_run (hsize : size ≤ 2 ^ 32) (hrun : Run (Returned hash) (new path size) evs c)
    (hput : ∀ ev ∈ evs, ev.2 ≠ some .storeLimit) :
    Tally (checksumTerm hash) c.value c.checksum.newChecksum := by
  have hnew := refines_new hash path size
  have hsteps := run_step hsize (run_answered hsize hrun hnew rfl) hnew rfl
  obtain ⟨h, hbal⟩ : c.Refines hash _ ∧ Ledger.Balanced hash _ :=
    hsteps.simulates_on (R := fun c L => c.Refines hash L ∧ L.Balanced hash)
      (fun hev hR hs => ⟨(hs.refines hR.1).2.1, hR.2.effect (hs.effect hR.1) hev⟩)
      (fun ev hev => hput ev (List.mem_of_mem_filter hev)) ⟨hnew, Ledger.balanced_new hash size⟩
  rw [h.value_eq, h.checksum_eq]
  exact hbal

/-- **Content checksum.**  After every run in which no `put` was denied the newest accumulator is
the sum, over the live keys, of the hash of the key xor the timestamp of its pair; so it is the same
in all `PMap`s with the same live keys and timestamps. -/
theorem newChecksum_content (hsize : size ≤ 2 ^ 32)
    (hrun : Run (Returned hash) (new path size) evs c)
    (hput : ∀ ev ∈ evs, ev.2 ≠ some .storeLimit) :
    (∃ keys : Finset Bytes, (∀ k, k ∈ keys ↔ c.value k ≠ none)
      ∧ c.checksum.newChecksum = ∑ k ∈ keys, (c.value k).elim 0 fun v => hash k ^^^ uint64 v)
    ∧ ∀ path' size' evs' c', size' ≤ 2 ^ 32 → Run (Returned hash) (new path' size') evs' c' →
      (∀ ev ∈ evs', ev.2 ≠ some .storeLimit) →
      (∀ k, (c'.value k).map uint64 = (c.value k).map uint64) →
      c'.checksum.newChecksum = c.checksum.newChecksum := by
  have h := tally_run hsize hrun hput
  refine ⟨h, fun path' size' evs' c' hsize' hrun' hput' hsame => ?_⟩
  refine (tally_run hsize' hrun' hput').eq_of_weight_eq h fun k => ?_
  have hk := hsame k
  rw [entryWeight, entryWeight]
  cases hv : c.value k with
  | none =>
    rw [hv, Option.map_none, Option.map_eq_none_iff] at hk
    rw [hk]
  | some v =>
    rw [hv, Option.map_some, Option.map_eq_some_iff] at hk
    obtain ⟨v', hv', ht⟩ := hk
    rw [hv', Option.elim_some, Option.elim_some, checksumTerm, checksumTerm, ht]

/-- A pair replaced and swapped, one deleted and a request rejected: the terms of the two keys that
are left. -/
theorem newChecksum_content_two : ∃ c, Run (Returned fun _ => 3) (new "" 200)
    [(.set [1] (stamped 5 [7]), none), (.set [2] (stamped 9 [8]), none),
      (.set [1] (stamped 6 []), none), (.set [3] (stamped 1 []), none),
      (.del [3] (stamped 1 []), none), (.set [2] (stamped 9 []), none),
      (.cas [1] (stamped 6 (leBytes 8 (fnv1a64 []).toNat ++ stamped 7 [4])), none),
      (.cas [2] (stamped 1 (leBytes 8 0 ++ stamped 8 [1])), some .casTimestamp)] c
    ∧ (∃ keys : Finset Bytes, (∀ k, k ∈ keys ↔ c.value k ≠ none)
      ∧ c.checksum.newChecksum = ∑ k ∈ keys, (c.value k).elim 0 fun v => 3 ^^^ uint64 v)
    ∧ c.checksum.newChecksum = (3 ^^^ 7) + (3 ^^^ 9) := by
  obtain ⟨c, hrun, hsum⟩ := exists_run (fun _ => 3) (new "" 200)
    [(.set [1] (stamped 5 [7]), none), (.set [2] (stamped 9 [8]), none),
      (.set [1] (stamped 6 []), none), (.set [3] (stamped 1 []), none),
      (.del [3] (stamped 1 []), none), (.set [2] (stamped 9 []), none),
      (.cas [1] (stamped 6 (leBytes 8 (fnv1a64 []).toNat ++ stamped 7 [4])), none),
      (.cas [2] (stamped 1 (leBytes 8 0 ++ stamped 8 [1])), some .casTimestamp)]
    (fun c => .ok c.checksum.newChecksum) ((3 ^^^ 7) + (3 ^^^ 9)) (by decide) (by decide +kernel)
  have hret := hrun.mono fun h => h.2
  exact ⟨c, hret, (newChecksum_content (by decide) hret (by decide)).1, Except.ok.inj hsum⟩

end PMap

end Treeless
