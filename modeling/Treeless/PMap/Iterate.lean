import Treeless.PMap.Runs

/-!
# PMap/Iterate — which records the iteration shows

`Iterate` goes through the log and shows a record if `isPresent` says so: if the eight bytes at its
value are those of the value that `Get` finds for its key.  For a record with a value they are its
timestamp; behind a tombstone, whose value is empty, they are the bytes of what follows it.
-/

namespace Treeless

/-- The records of a log, with their addresses. -/
def located : ℕ → List Record → List (ℕ × Record)
  | _, [] => []
  | off, r :: log => (off, r) :: located (off + r.size) log

theorem map_snd_located : ∀ (base : ℕ) (log : List Record), (located base log).map Prod.snd = log
  | _, [] => rfl
  | base, r :: log => by rw [located, List.map_cons, map_snd_located]

theorem located_snoc : ∀ (base : ℕ) (log : List Record) (r : Record),
    located base (log ++ [r]) = located base log ++ [(base + logSize log, r)]
  | _, [], _ => rfl
  | base, r₀ :: log, r => by
      rw [List.cons_append, located, located_snoc, located, logSize_cons, Nat.add_assoc]
      rfl

theorem recordAt_of_located : ∀ {log : List Record} {base : ℕ} {p : ℕ × Record},
    p ∈ located base log → ∃ off, p.1 = base + off ∧ recordAt log off = some p.2
  | r :: log, base, p, hp => by
      rcases List.mem_cons.mp hp with rfl | hp
      · exact ⟨0, rfl, recordAt_zero r log⟩
      · obtain ⟨off, hoff, hr⟩ := recordAt_of_located hp
        exact ⟨r.size + off, by omega, by rw [recordAt_size_add, hr]⟩

/-- Records do not overlap. -/
theorem add_size_le_of_lt : ∀ {log : List Record} {off off' : ℕ} {r r' : Record},
    recordAt log off = some r → recordAt log off' = some r' → off < off' → off + r.size ≤ off'
  | r₀ :: log, off, off', r, r', h, h', hlt => by
      rw [recordAt] at h h'
      rw [if_neg (by omega)] at h'
      split at h'
      · cases h'
      · split at h
        · next h0 =>
          obtain rfl := Option.some.inj h
          omega
        · split at h
          · cases h
          · have := add_size_le_of_lt h h' (by omega)
            omega

/-- The eight bytes at the value of a record. -/
def Store.shown (st : Store) (p : ℕ × Record) : Bytes :=
  st.file.read (p.1 + 8 + p.2.key.length) 8

/-- The record shows the timestamp of the value its key has now. -/
def Store.current (st : Store) (m : Dict) (p : ℕ × Record) : Bool :=
  match m p.2.key with
  | none => false
  | some v => decide (v.take 8 = st.shown p)

namespace PMap

variable {c : PMap} {log : List Record} {m : Dict} {index : ℕ} {r : Record}

/-- There are eight bytes at the value of every record of a present key: it is the current record
of the key, or that one is behind it. -/
theorem Denotes.first8_eq {hash : Bytes → UInt64} (h : c.Denotes hash log m)
    (hr : recordAt log index = some r) {v : Bytes} (hv : m r.key = some v) :
    c.st.first8 ⟨index + 8 + r.key.length, r.val.length⟩ = .ok (c.st.shown (index, r)) := by
  obtain ⟨i, hi, hi2, htarget⟩ := h.index.mem r.key v hv
  have hlen : 8 ≤ v.length := (h.index.live i hi hi2 _ htarget).2.2
  have hend := add_size_le_of_recordAt htarget
  have hfits := h.isLog.fits
  rw [← h.isLog.length_eq, Record.size_mk] at hend
  have hle : index ≤ (c.hm.getStoreIndex i).toNat :=
    h.index.latest i hi hi2 _ htarget index r hr rfl
  have hbound : index + 8 + r.key.length + 8 ≤ c.st.size := by
    rcases hle.lt_or_eq with hlt | heq
    · have hsep := add_size_le_of_lt hr htarget hlt
      rw [Record.size] at hsep
      omega
    · omega
  exact Store.first8_eq hbound

/-- **A record is present exactly if it shows the current timestamp of its key.** -/
theorem Denotes.isPresent_eq (h : c.Denotes fnv1a64 log m) (hr : recordAt log index = some r)
    (hkey : 2 ≤ (fnv1a64 r.key).toUInt32) :
    c.isPresent index = .ok (c.st.current m (index, r)) := by
  have hat := h.isLog.recordAt hr
  rw [isPresent, hat.key_eq, Call.ok_bind, h.get_eq hkey, Call.ok_bind, Store.current]
  cases hv : m r.key with
  | none => rfl
  | some v =>
    obtain ⟨i, hi, hi2, htarget⟩ := h.index.mem r.key v hv
    have hlen : 8 ≤ v.length := (h.index.live i hi hi2 _ htarget).2.2
    dsimp only
    rw [hat.header.valSlice_eq, Call.ok_bind, if_neg (not_lt.mpr hlen), h.first8_eq hr hv]
    rfl

/-- The question whether a record is present can be answered: a value that `Get` finds for its key
has a timestamp, and there are eight bytes at its own value.  It matters for the hash word of the
deleted buckets only, since `Get` does not move it out of the way. -/
def Readable (c : PMap) (index : ℕ) : Prop :=
  ∀ key, c.st.key index = .ok key → (fnv1a64 key).toUInt32 = 1 →
    ∀ v, c.get 1 key = .ok (some v) → 8 ≤ v.length ∧ index + 16 + key.length ≤ c.st.size

/-- **When a question is answered.** -/
theorem Denotes.isPresent_iff (h : c.Denotes fnv1a64 log m) (hr : recordAt log index = some r) :
    (c.Readable index → ∃ b, c.isPresent index = .ok b)
      ∧ (¬ c.Readable index → c.isPresent index = .error .bounds) := by
  have hat := h.isLog.recordAt hr
  by_cases hone : (fnv1a64 r.key).toUInt32 = 1
  · have hsize : index + 8 + r.key.length + 8 = index + 16 + r.key.length := by omega
    have hread : c.Readable index ↔ ∀ v, c.get 1 r.key = .ok (some v) →
        8 ≤ v.length ∧ index + 16 + r.key.length ≤ c.st.size :=
      ⟨fun hall => hall _ hat.key_eq hone, fun hall key hkey _ =>
        Except.ok.inj (hat.key_eq.symm.trans hkey) ▸ hall⟩
    rw [hread, isPresent, hat.key_eq, Call.ok_bind, hone]
    obtain ⟨_ | v, hget⟩ := h.get_returns 1 r.key
    · rw [hget]
      exact ⟨fun _ => ⟨false, rfl⟩, fun hno => absurd (fun v hv => nomatch hv) hno⟩
    · rw [hget, Call.ok_bind]
      dsimp only
      rw [hat.header.valSlice_eq, Call.ok_bind, Store.first8, Store.sliceOf, hsize]
      constructor
      · intro hall
        obtain ⟨hlen, hfits⟩ := hall v rfl
        rw [if_neg (not_lt.mpr hlen), if_pos ⟨by dsimp only; omega, hfits⟩]
        exact ⟨_, rfl⟩
      · intro hno
        split
        · rfl
        · next hlen =>
          rw [if_neg fun hfits => hno fun v' hv' => ?_]
          · rfl
          · cases hv'
            exact ⟨not_lt.mp hlen, hfits.2⟩
  · have hread : c.Readable index := fun key hkey hkey1 =>
      absurd (Except.ok.inj (hat.key_eq.symm.trans hkey) ▸ hkey1) hone
    refine ⟨fun _ => ?_, fun hno => absurd hread hno⟩
    by_cases hkey : 2 ≤ (fnv1a64 r.key).toUInt32
    · exact ⟨_, h.isPresent_eq hr hkey⟩
    · rcases reserved_of_not_two_le hkey with hzero | hone'
      · refine ⟨false, ?_⟩
        rw [isPresent, hat.key_eq, Call.ok_bind, hzero, h.get_zero]
        rfl
      · exact absurd hone' hone

theorem pairAt_of_shows (hat : c.st.Shows index r) {b : Bool} (hb : c.isPresent index = .ok b) :
    c.pairAt index = .ok (if b then some (r.key, r.val) else none) := by
  rw [pairAt, hb, Call.ok_bind, hat.key_eq, hat.val_eq]
  cases b <;> rfl

theorem nextIndex_of_shows (hat : c.st.Shows index r) :
    c.nextIndex index = .ok (index + r.size) := by
  rw [nextIndex, hat.totalLen_eq, Record.size, Nat.add_assoc 12]
  rfl

/-- The iteration shows the record. -/
def shows (c : PMap) (p : ℕ × Record) : Bool := decide (c.isPresent p.1 = .ok true)

/-- The question whether the record is present is answered. -/
def Answers (c : PMap) (p : ℕ × Record) : Prop := ∃ b, c.isPresent p.1 = .ok b

theorem Answers.isPresent_eq {p : ℕ × Record} (h : c.Answers p) :
    c.isPresent p.1 = .ok (c.shows p) := by
  obtain ⟨b, hb⟩ := h
  rw [shows, hb]
  cases b <;> rfl

/-- **A record of a key with no reserved hash word shows** exactly if it has the current
timestamp. -/
theorem Denotes.shows_eq (h : c.Denotes fnv1a64 log m) {p : ℕ × Record} (hp : p ∈ located 0 log)
    (hkey : 2 ≤ (fnv1a64 p.2.key).toUInt32) : c.Answers p ∧ c.shows p = c.st.current m p := by
  obtain ⟨off, hoff, hr⟩ := recordAt_of_located hp
  rw [Nat.zero_add] at hoff
  have heq := h.isPresent_eq (hoff ▸ hr) hkey
  refine ⟨⟨_, heq⟩, ?_⟩
  rw [shows, heq]
  cases c.st.current m (p.1, p.2) <;> rfl

/-- The callback of an iteration that collects the pairs. -/
def collect (sent : List (Bytes × Bytes)) (key value : Bytes) :
    Call (List (Bytes × Bytes) × Bool) := .ok (sent ++ [(key, value)], true)

/-! ## The addresses -/

section Visits

variable (c)

/-- The addresses `Iterate` goes through from `index` on. -/
def visitsFrom : ℕ → ℕ → Call (List ℕ)
  | 0, _ => .error .endless
  | fuel + 1, index =>
    if index < c.st.length then do
      let next ← c.nextIndex index
      let rest ← visitsFrom fuel next
      return index :: rest
    else .ok []

def visits : Call (List ℕ) := c.visitsFrom (c.st.length + 1) 0

/-- What an iteration does at an address, if it is not asked to stop. -/
def visit {σ : Type} (foreach : σ → Bytes → Bytes → Call (σ × Bool)) (s : σ) (index : ℕ) :
    Call σ := do
  match ← c.pairAt index with
  | some (key, val) => Prod.fst <$> foreach s key val
  | none => return s

end Visits

/-- The addresses of the records of a log. -/
def addresses (log : List Record) : List ℕ := (located 0 log).map Prod.fst

theorem Denotes.visitsFrom_eq {hash : Bytes → UInt64} {rest : List Record} :
    ∀ (pre : List Record) {fuel : ℕ}, c.Denotes hash (pre ++ rest) m → rest.length < fuel →
      c.visitsFrom fuel (logSize pre) = .ok ((located (logSize pre) rest).map Prod.fst) := by
  induction rest with
  | nil =>
    intro pre fuel h hfuel
    obtain ⟨fuel, rfl⟩ := Nat.exists_eq_succ_of_ne_zero (by omega : fuel ≠ 0)
    rw [List.append_nil] at h
    rw [visitsFrom, if_neg (by rw [h.isLog.length_eq]; omega)]
    rfl
  | cons r rest ih =>
    intro pre fuel h hfuel
    obtain ⟨fuel, rfl⟩ := Nat.exists_eq_succ_of_ne_zero (by omega : fuel ≠ 0)
    have hat := (h.isLog.recordAt (recordAt_append_cons pre r rest)).shows
    have hlt : logSize pre < c.st.length := by
      have h12 := r.twelve_le_size
      rw [h.isLog.length_eq, logSize_append, logSize_cons]
      omega
    rw [List.append_cons] at h
    rw [visitsFrom, if_pos hlt, nextIndex_of_shows hat, Call.ok_bind, ← logSize_snoc,
      ih _ h (Nat.lt_of_succ_lt_succ hfuel), logSize_snoc]
    rfl

/-- **The addresses are those of the records**, by the lengths in front of the keys. -/
theorem Denotes.visits_eq {hash : Bytes → UInt64} (h : c.Denotes hash log m) :
    c.visits = .ok (addresses log) := by
  have hcount := length_le_logSize log
  rw [← h.isLog.length_eq] at hcount
  exact visitsFrom_eq [] h (Nat.lt_succ_of_le hcount)

/-! ## The fold -/

section Continues

variable {σ : Type} {foreach : σ → Bytes → Bytes → Call (σ × Bool)} {hash : Bytes → UInt64}

/-- What the iteration has looked at. -/
theorem pairAt_of_foldlM_visit : ∀ {is : List ℕ} {s s' : σ},
    is.foldlM (c.visit foreach) s = .ok s' → ∀ i ∈ is, ∃ pair, c.pairAt i = .ok pair
  | i :: is, s, s', h, j, hj => by
      obtain ⟨s₁, hvisit, h⟩ := Call.bind_eq_ok.mp h
      rcases List.mem_cons.mp hj with rfl | hj
      · obtain ⟨pair, hpair, -⟩ := Call.bind_eq_ok.mp hvisit
        exact ⟨pair, hpair⟩
      · exact pairAt_of_foldlM_visit h j hj

variable (hgo : ∀ s k v s' b, foreach s k v = .ok (s', b) → b = true)
include hgo

/-- What comes behind the callback of a turn, if it does not ask to stop. -/
theorem visit_bind (s : σ) (next : σ → Call σ) :
    (do
      let (s, ok) ← match ← c.pairAt index with
        | some (key, val) => foreach s key val
        | none => .ok (s, true)
      if ok then next s else return s) = c.visit foreach s index >>= next := by
  rw [visit]
  cases c.pairAt index with
  | error f => rfl
  | ok pair =>
    cases pair with
    | none => rfl
    | some p =>
      rw [Call.ok_bind, Call.ok_bind]
      dsimp only
      cases hf : foreach s p.1 p.2 with
      | error f => rfl
      | ok q =>
        obtain ⟨s', b⟩ := q
        obtain rfl := hgo _ _ _ _ _ hf
        rfl

/-- **`Iterate` does its work at the addresses it goes through.** -/
theorem iterateFrom_of_visitsFrom : ∀ {fuel index : ℕ} {is : List ℕ} {s : σ},
    c.visitsFrom fuel index = .ok is →
      c.iterateFrom foreach fuel index s = is.foldlM (c.visit foreach) s
  | 0, _, _, _, h => by cases h
  | fuel + 1, index, is, s, h => by
      rw [visitsFrom] at h
      split at h
      · next hlt =>
        obtain ⟨next, hnext, h⟩ := Call.bind_eq_ok.mp h
        obtain ⟨rest, hrest, h⟩ := Call.bind_eq_ok.mp h
        cases h
        rw [iterateFrom, if_pos hlt, hnext, List.foldlM_cons]
        refine (visit_bind hgo s _).trans (bind_congr fun s => ?_)
        exact iterateFrom_of_visitsFrom hrest
      · next hge =>
        cases h
        rw [iterateFrom, if_neg hge]
        rfl

theorem Denotes.iterate_eq_visits (h : c.Denotes hash log m) (s : σ) :
    c.iterate foreach s = (addresses log).foldlM (c.visit foreach) s :=
  iterateFrom_of_visitsFrom hgo h.visits_eq

/-- An iteration that returns has asked for every record, and each time was answered. -/
theorem Denotes.answers_of_iterate (h : c.Denotes hash log m) {s s' : σ}
    (hx : c.iterate foreach s = .ok s') : ∀ p ∈ located 0 log, c.Answers p := by
  intro p hp
  rw [h.iterate_eq_visits hgo] at hx
  obtain ⟨pair, hpair⟩ := pairAt_of_foldlM_visit hx p.1 (List.mem_map_of_mem hp)
  obtain ⟨b, hb, -⟩ := Call.bind_eq_ok.mp hpair
  exact ⟨b, hb⟩

/-- **The iteration is a fold over the records that show**, if it is not asked to stop. -/
theorem Denotes.iterate_eq (h : c.Denotes hash log m) (hans : ∀ p ∈ located 0 log, c.Answers p)
    (s : σ) : c.iterate foreach s = ((located 0 log).filter c.shows).foldlM
      (fun s p => Prod.fst <$> foreach s p.2.key p.2.val) s := by
  have hvisit : ∀ p ∈ located 0 log, ∀ s, c.visit foreach s p.1
      = if c.shows p then Prod.fst <$> foreach s p.2.key p.2.val else pure s := by
    intro p hp s
    obtain ⟨off, hoff, hr⟩ := recordAt_of_located hp
    rw [Nat.zero_add] at hoff
    have hat := (h.isLog.recordAt (hoff ▸ hr)).shows
    rw [visit, pairAt_of_shows hat (hans p hp).isPresent_eq, Call.ok_bind]
    cases c.shows p <;> rfl
  rw [h.iterate_eq_visits hgo, addresses, List.foldlM_map, List.foldlM_filter]
  exact Call.foldlM_congr hvisit s

end Continues

end PMap

end Treeless
