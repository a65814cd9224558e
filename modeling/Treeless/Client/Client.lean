import Treeless.PMap.Checksum

/-!
# Client/Client — what a client computes

A client sends its requests to the holders of the key's chunk, which it knows in an order of its
own.  `Get` takes the latest of the replies and sends it to the holders that have an older one or
none.  `CAS` goes to one holder, the master: the one of the largest rank, where the rank of a holder
is the hash of the key and its address; the others get a `Set` of the new pair if it succeeds.
-/

namespace Treeless

namespace Client

variable {ι : Type}

/-- The holders as an array of eight places, the first of them in use. -/
def servers (holders : List ι) : List (Option ι) :=
  holders.map some ++ List.replicate (8 - holders.length) none

/-! ## `Get` -/

/-- The timestamp of a reply, if there is one. -/
def replyTime : Option Bytes → Option Time
  | none => none
  | some v => if 8 ≤ v.length then some (unixTime v) else none

/-- The latest value so far, and one reply more. -/
def later (last reply : Option Bytes) : Option Bytes :=
  match reply with
  | none => last
  | some v =>
    if 8 ≤ v.length then
      match last with
      | none => some v
      | some l => if unixTime l < unixTime v then some v else last
    else last

/-- The value `Get` finds in the replies, in the order of the holders. -/
def latest (replies : List (Option Bytes)) : Option Bytes := replies.foldl later none

/-- The holders that get the value found: those that have an older one, or did not reply. -/
def stale (holders : List ι) (reply : ι → Option Bytes) (value : Bytes) : List ι :=
  holders.filter fun i => match replyTime (reply i) with
    | none => true
    | some t => decide (t < unixTime value)

/-- **`Get` finds one of the replies.** -/
theorem mem_of_latest {replies : List (Option Bytes)} {v : Bytes} (h : latest replies = some v) :
    some v ∈ replies := by
  have hfold : ∀ (rs : List (Option Bytes)) (last : Option Bytes),
      rs.foldl later last = some v → some v ∈ rs ∨ last = some v := by
    intro rs
    induction rs with
    | nil => exact fun last h => Or.inr h
    | cons r rs ih =>
      intro last h
      rcases ih (later last r) h with hmem | hlater
      · exact Or.inl (List.mem_cons_of_mem _ hmem)
      · unfold later at hlater
        split at hlater
        · exact Or.inr hlater
        · split at hlater
          · split at hlater
            · exact Or.inl (hlater ▸ List.mem_cons_self)
            · split at hlater
              · exact Or.inl (hlater ▸ List.mem_cons_self)
              · exact Or.inr hlater
          · exact Or.inr hlater
  exact (hfold replies none h).resolve_right nofun

/-! ## `CAS` -/

/-- What a `CAS` goes by: the pair that a `Get` returned, or nothing, with the timestamp then
provided. -/
inductive Basis
  | pair (v : Bytes)
  | nothing (stamp : Bytes)
  deriving DecidableEq, Repr

namespace Basis

/-- The pair, if there is one. -/
def pair? : Basis → Option Bytes
  | pair v => some v
  | nothing _ => none

/-- The timestamp provided. -/
def stamp : Basis → Bytes
  | pair v => v.take 8
  | nothing stamp => stamp

/-- The old value provided. -/
def oldValue : Basis → Bytes
  | pair v => v.drop 8
  | nothing _ => []

end Basis

/-- The value of a `CAS` request: the timestamp provided, the hash of the old value, and the new
pair. -/
def casValue (basis : Basis) (new : Bytes) : Bytes :=
  basis.stamp ++ leBytes 8 (fnv1a64 basis.oldValue).toNat ++ new

section CasValue

variable {basis : Basis} {new : Bytes} (h : basis.stamp.length = 8)

include h

theorem unixTime_casValue : unixTime (casValue basis new) = unixTime basis.stamp := by
  rw [← unixTime_take, casValue, List.append_assoc, List.take_append_of_le_length h.ge,
    List.take_of_length_le h.le]

theorem drop_casValue : (casValue basis new).drop 16 = new := by
  have hlen : (basis.stamp ++ leBytes 8 (fnv1a64 basis.oldValue).toNat).length = 16 := by
    rw [List.length_append, h, length_leBytes]
  rw [casValue, ← hlen, List.drop_left]

end CasValue

/-! ## The master -/

/-- The rank of a holder, by its address. -/
def rank (key phy : Bytes) : UInt64 := fnv1a64 (key ++ phy)

/-- The index and the rank of the master so far, and one place more. -/
def electOne (best : ℕ × UInt64) (place : UInt64 × ℕ) : ℕ × UInt64 :=
  if best.2 < place.1 then (place.2, place.1) else best

/-- The index of the master: the first place of the largest rank. -/
def selectMaster (ranks : List UInt64) : ℕ := (ranks.zipIdx.foldl electOne (0, 0)).1

/-- The master of a key; a place with no holder has rank 0. -/
def master (rank : ι → UInt64) (holders : List ι) : Option ι :=
  let servers := servers holders
  let ranks := servers.map fun s => (s.map rank).getD 0
  servers[selectMaster ranks]?.join

/-- **The election** ends at the best so far, or at a place of a larger rank; no place has a larger
rank than the one it ends at. -/
theorem foldl_electOne (ranks : List UInt64) : ∀ (n : ℕ) (best : ℕ × UInt64),
    ∃ best', (ranks.zipIdx n).foldl electOne best = best' ∧ best.2 ≤ best'.2
      ∧ (∀ r ∈ ranks, r ≤ best'.2)
      ∧ (best' = best ∨ best.2 < best'.2 ∧ ∃ i, best'.1 = n + i ∧ ranks[i]? = some best'.2) := by
  induction ranks with
  | nil => exact fun n best => ⟨best, rfl, UInt64.le_refl _, fun _ hr => (nomatch hr), Or.inl rfl⟩
  | cons r ranks ih =>
    intro n best
    obtain ⟨best', hfold, hle, hall, hat⟩ := ih (n + 1) (electOne best (r, n))
    have hone : best.2 ≤ (electOne best (r, n)).2 ∧ r ≤ (electOne best (r, n)).2
        ∧ (electOne best (r, n) = best ∨ best.2 < r ∧ electOne best (r, n) = (n, r)) := by
      rw [electOne]
      split
      · next hlt => exact ⟨UInt64.le_of_lt hlt, UInt64.le_refl _, Or.inr ⟨hlt, rfl⟩⟩
      · next hge => exact ⟨UInt64.le_refl _, UInt64.not_lt.mp hge, Or.inl rfl⟩
    refine ⟨best', hfold, UInt64.le_trans hone.1 hle, ?_, ?_⟩
    · exact List.forall_mem_cons.mpr ⟨UInt64.le_trans hone.2.1 hle, hall⟩
    · rcases hat with rfl | ⟨hlt, i, hi, hget⟩
      · rcases hone.2.2 with heq | ⟨hlt, heq⟩
        · exact Or.inl heq
        · rw [heq]
          exact Or.inr ⟨hlt, 0, rfl, rfl⟩
      · exact Or.inr ⟨UInt64.lt_of_le_of_lt hone.1 hlt, i + 1, by omega, hget⟩

/-- **The master is a holder of the largest rank.** -/
theorem master_spec (rank : ι → UInt64) {holders : List ι} (hne : holders ≠ []) :
    ∃ m ∈ holders, master rank holders = some m ∧ ∀ j ∈ holders, rank j ≤ rank m := by
  obtain ⟨best, hfold, -, hall, hat⟩ :=
    foldl_electOne ((servers holders).map fun s => (s.map rank).getD 0) 0 (0, 0)
  have hmaster : master rank holders = (servers holders)[best.1]?.join := by
    rw [master, selectMaster, hfold]
  have hle : ∀ j ∈ holders, rank j ≤ best.2 := fun j hj =>
    hall _ (List.mem_map.mpr ⟨some j, List.mem_append_left _ (List.mem_map_of_mem hj), rfl⟩)
  rcases hat with rfl | ⟨hpos, i, hi, hget⟩
  · -- all the ranks are 0, and the master is the first holder
    obtain ⟨m, rest, rfl⟩ := List.exists_cons_of_ne_nil hne
    exact ⟨m, List.mem_cons_self, hmaster, fun j hj =>
      UInt64.le_trans (hle j hj) (UInt64.le_iff_toNat_le.mpr (Nat.zero_le _))⟩
  · rw [Nat.zero_add] at hi
    rw [List.getElem?_map, Option.map_eq_some_iff] at hget
    obtain ⟨s, hs, hrank⟩ := hget
    cases s with
    | none =>
      -- a place with no holder has rank 0
      rw [← hrank] at hpos
      exact absurd hpos (UInt64.lt_irrefl 0)
    | some m =>
      have hmem : m ∈ holders := by
        rcases List.mem_append.mp (List.mem_of_getElem? hs) with h | h
        · obtain ⟨j, hj, heq⟩ := List.mem_map.mp h
          exact Option.some.inj heq ▸ hj
        · exact nomatch List.eq_of_mem_replicate h
      refine ⟨m, hmem, ?_, fun j hj => ?_⟩
      · rw [hmaster, hi, hs]
        rfl
      · have hrank : rank m = best.2 := hrank
        exact hrank ▸ hle j hj

/-- **All the clients elect the same master**, in whatever order they know the holders. -/
theorem master_eq {rank : ι → UInt64} (hrank : Function.Injective rank) {m : ι}
    (hm : ∀ j, rank j ≤ rank m) {holders : List ι} (hmem : m ∈ holders) :
    master rank holders = some m := by
  obtain ⟨m', -, hmaster, hle⟩ := master_spec rank (List.ne_nil_of_mem hmem)
  rw [hmaster, hrank (UInt64.le_antisymm (hm m') (hle m hmem))]

end Client

end Treeless
