import Treeless.PMap.Backwards

/-!
# PMap/Mirror — the two iterations over one log

    forwards    0 ─totalLen─▸ i₁ ─totalLen─▸ i₂ ─ … ─▸ length
    backwards   0 ◂──prev──── i₁ ◂──prev──── i₂ ◂ … ── length

Each iteration finds the records by one of the two lengths a record carries, and asks of each record
whether it is present.  The addresses are the same, in opposite orders (`Denotes.visits_eq`,
`Denotes.visitsBack_eq`), and what is handed out depends on them alone (`Denotes.iterate_eq_visits`,
`backwardsIterate_of_visitsBack`).
-/

namespace Treeless

namespace PMap

variable (c : PMap) {σ : Type}

/-! ## Backwards -/

/-- The backwards iteration from the record at `index` on: `foreach` is called on every present pair
until it asks to stop. -/
def backwardsFrom (foreach : σ → Bytes → Bytes → Call (σ × Bool)) : ℕ → ℕ → σ → Call σ
  | 0, _, _ => .error .endless
  | fuel + 1, index, s => do
    let (s, ok) ← match ← c.pairAt index with
      | some (key, val) => foreach s key val
      | none => .ok (s, true)
    if ok then
      match ← c.backwardsNext index with
      | .at index => backwardsFrom foreach fuel index s
      | _ => return s
    else return s

/-- Calls `foreach` on every present pair, against log order. -/
def backwardsIterate (foreach : σ → Bytes → Bytes → Call (σ × Bool)) (s : σ) : Call σ := do
  match ← c.backwardsStart with
  | .at index => c.backwardsFrom foreach (c.st.length + 1) index s
  | _ => return s

/-! ## The addresses -/

/-- The addresses `BackwardsIterate` goes through from `index` on. -/
def visitsBackFrom : ℕ → ℕ → Call (List ℕ)
  | 0, _ => .error .endless
  | fuel + 1, index => do
    match ← c.backwardsNext index with
    | .at next =>
      let rest ← visitsBackFrom fuel next
      return index :: rest
    | _ => return [index]

def visitsBack : Call (List ℕ) := do
  match ← c.backwardsStart with
  | .at index => c.visitsBackFrom (c.st.length + 1) index
  | _ => return []

/-- The store ends with its log: nothing behind the bytes in use can be read. -/
def cut : PMap := { c with st := { c.st with size := c.st.length } }

variable {c} {foreach : σ → Bytes → Bytes → Call (σ × Bool)}

section Continues

variable (hgo : ∀ s k v s' b, foreach s k v = .ok (s', b) → b = true)
include hgo

/-- **`BackwardsIterate` does its work at the addresses it goes through.** -/
theorem backwardsFrom_of_visitsBackFrom : ∀ {fuel index : ℕ} {is : List ℕ} {s : σ},
    c.visitsBackFrom fuel index = .ok is →
      c.backwardsFrom foreach fuel index s = is.foldlM (c.visit foreach) s
  | 0, _, _, _, h => by cases h
  | fuel + 1, index, is, s, h => by
      obtain ⟨next, hnext, h⟩ := Call.bind_eq_ok.mp h
      rw [backwardsFrom, hnext]
      cases next with
      | «at» next =>
        obtain ⟨rest, hrest, h⟩ := Call.bind_eq_ok.mp h
        cases h
        refine (visit_bind hgo s (c.backwardsFrom foreach fuel next)).trans ?_
        rw [List.foldlM_cons]
        exact bind_congr fun s => backwardsFrom_of_visitsBackFrom hrest
      | idle => cases h; exact visit_bind hgo s pure
      | past => cases h; exact visit_bind hgo s pure
      | done => cases h; exact visit_bind hgo s pure

theorem backwardsIterate_of_visitsBack {is : List ℕ} (h : c.visitsBack = .ok is) (s : σ) :
    c.backwardsIterate foreach s = is.foldlM (c.visit foreach) s := by
  obtain ⟨first, hfirst, h⟩ := Call.bind_eq_ok.mp h
  rw [backwardsIterate, hfirst, Call.ok_bind]
  cases first with
  | «at» index => exact backwardsFrom_of_visitsBackFrom hgo h
  | idle => cases h; rfl
  | past => cases h; rfl
  | done => cases h; rfl

end Continues

/-! ## The same addresses -/

variable {hash : Bytes → UInt64} {log : List Record} {m : Dict}

theorem addresses_snoc (log : List Record) (r : Record) :
    addresses (log ++ [r]) = addresses log ++ [logSize log] := by
  rw [addresses, located_snoc, List.map_append, Nat.zero_add]
  rfl

theorem Denotes.cut (h : c.Denotes hash log m) : c.cut.Denotes hash log m :=
  ⟨h.index, h.isLog.length_eq, h.isLog.holds, le_rfl, h.isLog.addressable⟩

/-- What the turn backwards from the end of `pre` finds. -/
theorem Denotes.backwardsNext_eq {pre post : List Record} {r : Record}
    (h : c.Denotes hash (pre ++ r :: post) m) : c.backwardsNext (logSize pre)
      = .ok (if pre = [] then .done else .at (logSize pre.dropLast)) := by
  rcases pre.eq_nil_or_concat' with rfl | ⟨pre', r', rfl⟩
  · rw [if_pos rfl]
    rfl
  · rw [List.append_assoc, List.singleton_append] at h
    have hat := h.isLog.recordAt (recordAt_append_cons pre' r' (r :: post))
    rw [PMap.backwardsNext, logSize_snoc, hat.prev_eq, Call.ok_bind,
      if_neg (not_lt.mpr (Int.natCast_nonneg _)), if_neg (List.concat_ne_nil r' pre'),
      List.dropLast_concat]
    rfl

theorem Denotes.visitsBackFrom_eq {pre : List Record} :
    ∀ {post : List Record} {r : Record} {fuel : ℕ}, c.Denotes hash (pre ++ r :: post) m →
      pre.length < fuel →
      c.visitsBackFrom fuel (logSize pre) = .ok (addresses (pre ++ [r])).reverse := by
  induction pre using List.reverseRecOn with
  | nil =>
    intro post r fuel h hfuel
    obtain ⟨fuel, rfl⟩ := Nat.exists_eq_succ_of_ne_zero (by omega : fuel ≠ 0)
    rw [visitsBackFrom, h.backwardsNext_eq]
    rfl
  | append_singleton pre r' ih =>
    intro post r fuel h hfuel
    obtain ⟨fuel, rfl⟩ := Nat.exists_eq_succ_of_ne_zero (by omega : fuel ≠ 0)
    rw [visitsBackFrom, h.backwardsNext_eq, if_neg (List.concat_ne_nil r' pre),
      List.dropLast_concat, Call.ok_bind]
    dsimp only
    rw [List.append_assoc, List.singleton_append] at h
    rw [List.length_append, List.length_singleton] at hfuel
    rw [ih h (by omega), Call.ok_bind, addresses_snoc (pre ++ [r']), List.reverse_concat]
    rfl

/-- The first turn backwards is to the last record. -/
theorem Denotes.backwardsStart_eq {pre : List Record} {r : Record}
    (h : c.Denotes hash (pre ++ [r]) m) : c.backwardsStart = .ok (.at (logSize pre)) := by
  rcases h.backwardsStart with ⟨hnil, -⟩ | ⟨off, r', hr', hend, hx⟩
  · exact absurd hnil (List.concat_ne_nil r pre)
  · rw [logSize_snoc] at hend
    rcases recordAt_append_singleton hr' with hr' | ⟨rfl, -⟩
    · have hle := add_size_le_of_recordAt hr'
      have h12 := r.twelve_le_size
      omega
    · exact hx

/-- **Backwards**, by the lengths behind the values. -/
theorem Denotes.visitsBack_eq (h : c.Denotes hash log m) :
    c.visitsBack = .ok (addresses log).reverse := by
  have hcount := length_le_logSize log
  rw [← h.isLog.length_eq] at hcount
  rw [visitsBack]
  rcases log.eq_nil_or_concat' with rfl | ⟨pre, r, rfl⟩
  · rcases h.backwardsStart with ⟨-, hx⟩ | ⟨off, r, hr, -⟩
    · rw [hx]
      rfl
    · cases hr
  · rw [h.backwardsStart_eq, Call.ok_bind]
    rw [List.length_append, List.length_singleton] at hcount
    exact h.visitsBackFrom_eq (by omega)

/-- Both iterations go through the records of `log`, in opposite orders. -/
structure Locates (c : PMap) (log : List Record) : Prop where
  isLog : c.st.IsLog log
  forwards : c.visits = .ok (addresses log)
  backwards : c.visitsBack = .ok (addresses log).reverse

theorem Denotes.locates (h : c.Denotes hash log m) : c.Locates log :=
  ⟨h.isLog, h.visits_eq, h.visitsBack_eq⟩

/-! ## The same pairs -/

theorem foldlM_visit_collect {p : ℕ → Option (Bytes × Bytes)} : ∀ {is : List ℕ},
    (∀ i ∈ is, c.pairAt i = .ok (p i)) → ∀ sent : List (Bytes × Bytes),
      is.foldlM (c.visit collect) sent = .ok (sent ++ is.filterMap p)
  | [], _, sent => by
      rw [List.filterMap_nil, List.append_nil]
      rfl
  | i :: is, hp, sent => by
      have hrest := foldlM_visit_collect fun j hj => hp j (List.mem_cons_of_mem i hj)
      rw [List.foldlM_cons, visit, hp i List.mem_cons_self, Call.ok_bind]
      cases hpi : p i with
      | none =>
        rw [List.filterMap_cons_none hpi]
        exact hrest sent
      | some q =>
        rw [List.filterMap_cons_some hpi, List.append_cons]
        exact hrest _

/-- **When the look at a record returns.** -/
theorem Denotes.pairAt_returns_iff (h : c.Denotes fnv1a64 log m) {index : ℕ} {r : Record}
    (hr : recordAt log index = some r) :
    (∃ pair, c.pairAt index = .ok pair) ↔ c.Readable index := by
  obtain ⟨hyes, hno⟩ := h.isPresent_iff hr
  constructor
  · rintro ⟨pair, hpair⟩
    by_contra hread
    rw [pairAt, hno hread] at hpair
    cases hpair
  · intro hread
    obtain ⟨b, hb⟩ := hyes hread
    exact ⟨_, pairAt_of_shows (h.isLog.recordAt hr).shows hb⟩

/-- **Opposite orders, opposite sequences**: the two iterations return, with each other's pairs in
reverse, if they return at all. -/
theorem mirrored_iff {is : List ℕ} (hforth : c.iterate collect [] = is.foldlM (c.visit collect) [])
    (hback : c.backwardsIterate collect [] = is.reverse.foldlM (c.visit collect) []) :
    (∃ ps, c.iterate collect [] = .ok ps ∧ c.backwardsIterate collect [] = .ok ps.reverse)
      ↔ ∀ i ∈ is, ∃ pair, c.pairAt i = .ok pair := by
  constructor
  · rintro ⟨ps, hps, -⟩
    exact pairAt_of_foldlM_visit (hforth.symm.trans hps)
  · intro hall
    choose! p hp using hall
    refine ⟨is.filterMap p, hforth.trans (foldlM_visit_collect hp []), ?_⟩
    rw [← List.filterMap_reverse]
    exact hback.trans (foldlM_visit_collect (fun i hi => hp i (List.mem_reverse.mp hi)) [])

theorem collect_continues (sent : List (Bytes × Bytes)) (k v : Bytes) (sent' : List (Bytes × Bytes))
    (b : Bool) (h : collect sent k v = .ok (sent', b)) : b = true :=
  (Prod.mk.inj (Except.ok.inj h)).2.symm

/-- **Backwards is forwards, reversed.**  After every run both iterations go through the records of
the log, in opposite orders, and would find them in the bytes in use alone; a callback that does not
stop them is called at these addresses.  The pairs they hand out are each other's in reverse exactly
if every record can be asked for: its key does not have the hash word of the deleted buckets, or
`Get` finds nothing of it there, or there are eight bytes at its value. -/
theorem backwards_mirrors_iff {path : String} {size : ℕ} {evs : List (Op × Option Error)}
    (hsize : size ≤ 2 ^ 32) (hrun : Run (Returned fnv1a64) (new path size) evs c) :
    ∃ log, c.Locates log ∧ c.cut.Locates log
      ∧ (∀ (σ : Type) (foreach : σ → Bytes → Bytes → Call (σ × Bool)) (s : σ),
        (∀ s k v s' b, foreach s k v = .ok (s', b) → b = true) →
        c.iterate foreach s = (addresses log).foldlM (c.visit foreach) s
          ∧ c.backwardsIterate foreach s = (addresses log).reverse.foldlM (c.visit foreach) s)
      ∧ ((∃ ps, c.iterate collect [] = .ok ps ∧ c.backwardsIterate collect [] = .ok ps.reverse)
        ↔ ∀ i ∈ addresses log, c.Readable i) := by
  have hnew := refines_new fnv1a64 path size
  have h := (refines_run (run_step hsize (run_answered hsize hrun hnew rfl) hnew rfl)).toDenotes
  have hfold : ∀ (σ : Type) (foreach : σ → Bytes → Bytes → Call (σ × Bool)) (s : σ),
      (∀ s k v s' b, foreach s k v = .ok (s', b) → b = true) →
      c.iterate foreach s = (addresses _).foldlM (c.visit foreach) s
        ∧ c.backwardsIterate foreach s = (addresses _).reverse.foldlM (c.visit foreach) s :=
    fun σ foreach s hgo => ⟨h.iterate_eq_visits hgo s,
      backwardsIterate_of_visitsBack hgo h.visitsBack_eq s⟩
  refine ⟨_, h.locates, h.cut.locates, hfold, ?_⟩
  obtain ⟨hforth, hback⟩ := hfold _ collect [] collect_continues
  rw [mirrored_iff hforth hback]
  refine forall₂_congr fun i hi => ?_
  obtain ⟨p, hp, rfl⟩ := List.mem_map.mp hi
  obtain ⟨off, hoff, hr⟩ := recordAt_of_located hp
  rw [Nat.zero_add] at hoff
  exact h.pairAt_returns_iff (hoff ▸ hr)

/-- A pair that is deleted, and two that are not. -/
def aPairDeleted : List (Op × Option Error) :=
  [(.set [1] (stamped 5 [7]), none), (.set [2] (stamped 5 [8]), none),
    (.del [1] (stamped 6 []), none), (.set [3] (stamped 5 [9]), none)]

/-- Four records, two of which are shown, in opposite orders. -/
theorem backwards_mirrors_two : ∃ c, Run (Returned fnv1a64) (new "" 100) aPairDeleted c
    ∧ c.visits = .ok [0, 22, 44, 57]
    ∧ c.iterate collect [] = .ok [([2], stamped 5 [8]), ([3], stamped 5 [9])]
    ∧ c.backwardsIterate collect [] = .ok [([3], stamped 5 [9]), ([2], stamped 5 [8])] := by
  obtain ⟨c, hrun, hobs⟩ := exists_run fnv1a64 (new "" 100) aPairDeleted
    (fun c => .ok (decide (c.visits = .ok [0, 22, 44, 57]
      ∧ c.iterate collect [] = .ok [([2], stamped 5 [8]), ([3], stamped 5 [9])]
      ∧ ∀ i ∈ ([0, 22, 44, 57] : List ℕ), (c.st.key i).toOption.any
        (fun key => decide ((fnv1a64 key).toUInt32 ≠ 1)) = true))) true (by decide)
    (by decide +kernel)
  obtain ⟨hvisits, hforth, hkeys⟩ := of_decide_eq_true (Except.ok.inj hobs)
  have hret := hrun.mono fun h => h.2
  obtain ⟨log, hloc, -, -, hiff⟩ := backwards_mirrors_iff (by decide) hret
  obtain ⟨ps, hps, hback⟩ := hiff.mpr fun i hi key hkey hone => by
    rw [Except.ok.inj (hloc.forwards.symm.trans hvisits)] at hi
    have hother := hkeys i hi
    rw [hkey] at hother
    exact absurd hone (of_decide_eq_true hother)
  obtain rfl := Except.ok.inj (hps.symm.trans hforth)
  exact ⟨c, hret, hvisits, hforth, hback⟩

/-- **A tombstone at the end of the file that cannot be asked for.**  The key of the last two
records has the hash word of the deleted buckets; the buckets 1 and 2 are in use, so that `Get`
comes to its bucket, which is deleted, and finds the pair there.  Of the eight bytes at the empty
value only five are in the file. -/
theorem backwards_stops_at_tombstone : ∃ c, Run (Returned fnv1a64) (new "" 85)
      [(.set [52, 152] (stamped 5 []), none), (.set [218, 187] (stamped 5 []), none),
        (.set [22, 205, 196, 131] (stamped 5 []), none),
        (.del [22, 205, 196, 131] (stamped 6 []), none)] c
    ∧ c.iterate collect [] = .error .bounds ∧ c.backwardsIterate collect [] = .error .bounds := by
  obtain ⟨c, hrun, hobs⟩ := exists_run fnv1a64 (new "" 85)
    [(.set [52, 152] (stamped 5 []), none), (.set [218, 187] (stamped 5 []), none),
      (.set [22, 205, 196, 131] (stamped 5 []), none),
      (.del [22, 205, 196, 131] (stamped 6 []), none)]
    (fun c => .ok (decide (c.iterate collect [] = .error .bounds
      ∧ c.backwardsIterate collect [] = .error .bounds))) true (by decide) (by decide +kernel)
  exact ⟨c, hrun.mono fun h => h.2, of_decide_eq_true (Except.ok.inj hobs)⟩

end PMap

end Treeless
