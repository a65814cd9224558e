import Treeless.Dist.ServerGroup
import Treeless.Dist.Duplicate

/-!
# Dist/Snapshot — the holders of a chunk, in an array of eight

    c.holders = [h₀, h₁, …, hₖ₋₁]  ──▸  [h₀, h₁, …, hₖ₋₁, nil, …, nil]

`GetChunkHolders` copies the list of the holders into an array that every client operation, every
repair and every transfer goes through.  Nothing bounds the list: a server becomes a holder by
reporting the chunk, whatever the configured redundancy, and several may duplicate one at once.  The
copy is a snapshot (`IsSnapshot`) exactly while there are at most eight (`getChunkHolders_iff`); at
the ninth the index is out of range.
-/

namespace Treeless

namespace ServerGroup

/-- One turn of the copying loop: `holders[i] = h; i++`. -/
def copyHolder (a : List (Option ℕ) × ℕ) (h : ℕ) : Call (List (Option ℕ) × ℕ) :=
  if a.2 < a.1.length then .ok (a.1.set a.2 (some h), a.2 + 1) else .error .bounds

/-- The holders of a chunk; `none` is `nil`. -/
def getChunkHolders (sg : ServerGroup) (cid : ℕ) : Call (List (Option ℕ)) := do
  let c ← sg.chunk cid
  let (holders, _) ← c.foldlM copyHolder (List.replicate 8 none, 0)
  return holders

/-- The array shows the holders of a chunk: each once, from index 0 on without a gap. -/
structure IsSnapshot (sg : ServerGroup) (cid : ℕ) (holders : List (Option ℕ)) : Prop where
  length_eq : holders.length = 8
  contiguous : ∀ (i j : ℕ) (s : ℕ), i < j → holders[j]? = some (some s) →
    ∃ t, holders[i]? = some (some t)
  once : ∀ (i j : ℕ) (s : ℕ), holders[i]? = some (some s) → holders[j]? = some (some s) → i = j
  complete : ∀ s, some s ∈ holders ↔ sg.Holding cid s

variable {sg : ServerGroup} {n cid : ℕ}

/-- **The loop fills the array from the left**, as far as it goes. -/
theorem foldlM_copyHolder : ∀ (c : VirtualChunk) (done : List (Option ℕ)) (room : ℕ),
    c.foldlM copyHolder (done ++ List.replicate room none, done.length)
      = if c.length ≤ room then
          .ok (done ++ c.map some ++ List.replicate (room - c.length) none, done.length + c.length)
        else .error .bounds
  | [], done, room => by simp
  | h :: c, done, 0 => by simp [copyHolder]
  | h :: c, done, room + 1 => by
      have hset := set_append_replicate done none (some h) room
      rw [List.append_cons] at hset
      have ih := foldlM_copyHolder c (done ++ [some h]) room
      rw [List.length_append, List.length_singleton] at ih
      rw [List.foldlM_cons, copyHolder, if_pos (by simp), hset, Call.ok_bind]
      dsimp only
      rw [ih]
      simp only [List.length_cons, Nat.add_le_add_iff_right, List.map_cons, List.append_assoc,
        List.cons_append, List.nil_append, Nat.add_sub_add_right, Nat.add_assoc,
        Nat.add_comm 1]

/-- **`GetChunkHolders` in closed form**: the array of the holders, as the duplicator reads it. -/
theorem getChunkHolders_eq {c : VirtualChunk} (hc : sg.chunk cid = .ok c) :
    sg.getChunkHolders cid = Duplicator.getChunkHolders c := by
  have hfold := foldlM_copyHolder c [] 8
  rw [List.nil_append, List.nil_append, List.length_nil] at hfold
  rw [getChunkHolders, hc, Call.ok_bind, hfold, Duplicator.getChunkHolders]
  split
  · rfl
  · rfl

/-- A list without repetition, padded, is a snapshot of its elements. -/
theorem isSnapshot_pad {hs : List ℕ} (hlen : hs.length ≤ 8) (hnd : hs.Nodup)
    (hmem : ∀ s, s ∈ hs ↔ sg.Holding cid s) :
    sg.IsSnapshot cid (hs.map some ++ List.replicate (8 - hs.length) none) := by
  have hget : ∀ i s : ℕ, (hs.map some ++ List.replicate (8 - hs.length) none)[i]? = some (some s)
      ↔ hs[i]? = some s := fun i s => by
    rcases lt_or_ge i hs.length with hi | hi
    · rw [List.getElem?_append_left (by simpa using hi), List.getElem?_map]
      simp
    · rw [List.getElem?_append_right (by simpa using hi), List.getElem?_eq_none hi]
      refine iff_of_false (fun h => ?_) (Option.some_ne_none s).symm
      cases List.eq_of_mem_replicate (List.mem_of_getElem? h)
  refine ⟨by simp; omega, fun i j s hij hj => ?_, fun i j s hi hj => ?_, fun s => ?_⟩
  · have hlt := (List.getElem?_eq_some_iff.mp ((hget j s).mp hj)).1
    exact ⟨_, (hget i _).mpr (List.getElem?_eq_getElem (hij.trans hlt))⟩
  · have hi := (hget i s).mp hi
    exact (List.getElem?_inj (List.getElem?_eq_some_iff.mp hi).1 hnd).mp
      (hi.trans ((hget j s).mp hj).symm)
  · rw [← hmem]
    simp

/-- **When the snapshot is complete**: after any calls on a group as it was built,
`GetChunkHolders` shows the holders of a chunk exactly while at most eight servers report it; with
more it leaves the array. -/
theorem getChunkHolders_iff {sg₀ : ServerGroup} {evs : List Event} (h₀ : Built sg₀ n)
    (hrun : Run Steps sg₀ evs sg) (hcid : cid < n) :
    ((∃ holders, sg.getChunkHolders cid = .ok holders ∧ sg.IsSnapshot cid holders)
      ↔ (sg.reporters cid).length ≤ 8)
    ∧ (8 < (sg.reporters cid).length → sg.getChunkHolders cid = .error .bounds) := by
  have h : sg.Inv n := hrun.invariant (fun h hs => h.step hs) h₀.inv
  rw [← h.length_eq] at hcid
  have hget := List.getElem?_eq_getElem hcid
  have hchunk : sg.chunk cid = .ok sg.chunks[cid] := by rw [chunk, hget]
  obtain ⟨hnd, hmem⟩ := h.holders cid _ hget
  have hnum : sg.chunks[cid].length = (sg.reporters cid).length := by
    have hcount := h.numHolders hget
    rw [numHolders, hchunk] at hcount
    exact Except.ok.inj hcount
  rw [getChunkHolders_eq hchunk, Duplicator.getChunkHolders, ← hnum]
  rcases le_or_gt sg.chunks[cid].length 8 with hle | hgt
  · rw [if_pos hle]
    exact ⟨iff_of_true ⟨_, rfl, isSnapshot_pad hle hnd hmem⟩ hle, fun hgt => absurd hle hgt.not_ge⟩
  · rw [if_neg hgt.not_ge]
    refine ⟨iff_of_false ?_ hgt.not_ge, fun _ => rfl⟩
    rintro ⟨holders, hholders, -⟩
    cases hholders

/-- Two servers report a chunk. -/
theorem getChunkHolders_iff_two : ∃ evs sg, Run Steps (create 1) evs sg
    ∧ ∃ holders, sg.getChunkHolders 0 = .ok holders ∧ sg.IsSnapshot 0 holders := by
  have hrun : ∃ sg, Run Steps (create 1) [.addServerToGroup "a", .setServerChunks "a" [⟨0, 7⟩],
      .addServerToGroup "b", .setServerChunks "b" [⟨0, 9⟩]] sg ∧ sg.reporters 0 = [1, 0] :=
    ⟨_, .cons ⟨_, rfl⟩ (.cons ⟨by decide, rfl⟩ (.cons ⟨_, rfl⟩ (.cons ⟨by decide, rfl⟩
      (.refl _)))), rfl⟩
  obtain ⟨sg, hrun, hrep⟩ := hrun
  refine ⟨_, sg, hrun, (getChunkHolders_iff (.create 1) hrun (by decide)).1.mpr ?_⟩
  rw [hrep]
  decide

/-- A server joins the group and reports its first chunk. -/
def joins (addr : String) : List Event := [.addServerToGroup addr, .setServerChunks addr [⟨0, 0⟩]]

/-- Nine servers. -/
def nine : List String := ["a", "b", "c", "d", "e", "f", "g", "h", "i"]

/-- **The ninth holder**: every call returns, and then the snapshot leaves its array. -/
theorem ninth_holder : ∃ sg, Run Steps (create 1) (nine.flatMap joins) sg
    ∧ sg.numHolders 0 = .ok 9 ∧ sg.getChunkHolders 0 = .error .bounds :=
  ⟨_, .cons ⟨_, rfl⟩ (.cons ⟨by decide, rfl⟩ (.cons ⟨_, rfl⟩ (.cons ⟨by decide, rfl⟩
    (.cons ⟨_, rfl⟩ (.cons ⟨by decide, rfl⟩ (.cons ⟨_, rfl⟩ (.cons ⟨by decide, rfl⟩
    (.cons ⟨_, rfl⟩ (.cons ⟨by decide, rfl⟩ (.cons ⟨_, rfl⟩ (.cons ⟨by decide, rfl⟩
    (.cons ⟨_, rfl⟩ (.cons ⟨by decide, rfl⟩ (.cons ⟨_, rfl⟩ (.cons ⟨by decide, rfl⟩
    (.cons ⟨_, rfl⟩ (.cons ⟨by decide, rfl⟩ (.refl _)))))))))))))))))), rfl, rfl⟩

end ServerGroup

end Treeless
