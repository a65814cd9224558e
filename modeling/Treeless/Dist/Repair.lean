import Treeless.PMap.Backwards
import Treeless.PMap.Converge
import Mathlib.Data.Set.Finite.Lemmas
import Mathlib.Order.Bounds.Basic

/-!
# Dist/Repair — every holder pushes what it has to every holder

A repair iterates backwards over a chunk and sends each pair it shows, as a `Set`, to all the
holders.  Every holder does so; the messages are delivered in any order, before, between and after
the turns of the other iterations:

    holder h:  at i ──pairAt i──► Set(key, value) ──► network ──deliver──► any holder

A pair with the largest timestamp of its key is never superseded, so its first holder still shows it
when the iteration comes by (`Inv.pushed`), and what is delivered last brings it everywhere.
-/

namespace Treeless

namespace Ledger

variable {hash : Bytes → UInt64} {L : Ledger} {k v : Bytes}

/-- **An accepted `Set`** is too old and changes nothing, or it is written. -/
theorem apply_set_cases (hash : Bytes → UInt64) (L : Ledger) (k v : Bytes) :
    ((∃ old, L.dict k = some old ∧ unixTime v ≤ unixTime old)
      ∧ L.apply hash (.set k v, none) = L)
    ∨ ((∀ old, L.dict k = some old → unixTime old < unixTime v)
      ∧ L.apply hash (.set k v, none) = L.write hash k v) := by
  simp only [apply]
  cases hk : L.dict k with
  | none => exact Or.inr ⟨fun _ h => (by cases h), rfl⟩
  | some old =>
    dsimp only
    split
    · next hle => exact Or.inl ⟨⟨old, rfl, hle⟩, rfl⟩
    · next hgt =>
      refine Or.inr ⟨fun old' h => ?_, rfl⟩
      rw [← Option.some.inj h]
      exact not_le.mp hgt

/-- The key has a value at least as new as `t`. -/
def Has (L : Ledger) (k : Bytes) (t : Time) : Prop := ∃ w, L.dict k = some w ∧ t ≤ unixTime w

/-- **A `Set` makes no key older.** -/
theorem Has.apply_set {k' : Bytes} {t : Time} (h : L.Has k' t) :
    (L.apply hash (.set k v, none)).Has k' t := by
  obtain ⟨w, hw, ht⟩ := h
  rcases apply_set_cases hash L k v with ⟨-, heq⟩ | ⟨hnew, heq⟩ <;> rw [heq]
  · exact ⟨w, hw, ht⟩
  · by_cases hk : k' = k
    · subst hk
      exact ⟨v, Function.update_self .., ht.trans (hnew w hw).le⟩
    · exact ⟨w, (Function.update_of_ne hk ..).trans hw, ht⟩

/-- **A `Set` makes its key at least as new as itself.** -/
theorem has_apply_set (hash : Bytes → UInt64) (L : Ledger) (k v : Bytes) :
    (L.apply hash (.set k v, none)).Has k (unixTime v) := by
  rcases apply_set_cases hash L k v with ⟨⟨old, hold, hle⟩, heq⟩ | ⟨-, heq⟩ <;> rw [heq]
  · exact ⟨old, hold, hle⟩
  · exact ⟨v, Function.update_self .., le_rfl⟩

/-- What is new after a `Set` is the `Set`. -/
theorem Has.of_apply_set {k' : Bytes} {t : Time} (h : (L.apply hash (.set k v, none)).Has k' t) :
    L.Has k' t ∨ (k' = k ∧ t ≤ unixTime v) := by
  rcases apply_set_cases hash L k v with ⟨-, heq⟩ | ⟨-, heq⟩ <;> rw [heq] at h
  · exact Or.inl h
  · obtain ⟨w, hw, ht⟩ := h
    replace hw : Function.update L.dict k (some v) k' = some w := hw
    by_cases hk : k' = k
    · subst hk
      rw [Function.update_self] at hw
      exact Or.inr ⟨rfl, (Option.some.inj hw) ▸ ht⟩
    · rw [Function.update_of_ne hk] at hw
      exact Or.inl ⟨w, hw, ht⟩

/-- A value stays that is not older than the `Set`. -/
theorem dict_apply_set_of_le {k' w : Bytes} (hw : L.dict k' = some w)
    (hle : k' = k → unixTime v ≤ unixTime w) :
    (L.apply hash (.set k v, none)).dict k' = some w := by
  rcases apply_set_cases hash L k v with ⟨-, heq⟩ | ⟨hnew, heq⟩ <;> rw [heq]
  · exact hw
  · by_cases hk : k' = k
    · subst hk
      exact absurd (hle rfl) (not_le.mpr (hnew w hw))
    · exact (Function.update_of_ne hk ..).trans hw

/-- A `Set` appends its record, or nothing. -/
theorem log_apply_set (hash : Bytes → UInt64) (L : Ledger) (k v : Bytes) :
    (L.apply hash (.set k v, none)).log = L.log
      ∨ (L.apply hash (.set k v, none)).log = L.log ++ [⟨k, v⟩] := by
  rcases apply_set_cases hash L k v with ⟨-, heq⟩ | ⟨-, heq⟩ <;> rw [heq]
  · exact Or.inl rfl
  · exact Or.inr rfl

end Ledger

/-! ## The model -/

/-- A `Set` message on its way to a holder. -/
structure Push (ι : Type) where
  holder : ι
  key : Bytes
  value : Bytes
  deriving DecidableEq

/-- The holders of a chunk: what they store, where their repairs are, and the messages. -/
structure Repair (ι : Type) where
  chunk : ι → PMap
  cursor : ι → Cursor
  network : List (Push ι)

namespace Repair

variable {ι : Type}

/-- The messages of a pair to the servers of `GetChunkHolders`; an entry may be `nil`. -/
def pushes (servers : Fin 8 → Option ι) (key value : Bytes) : List (Push ι) :=
  (List.finRange 8).filterMap fun j => (servers j).map fun s => ⟨s, key, value⟩

variable [DecidableEq ι] (servers : ι → Fin 8 → Option ι) (g : Repair ι)

/-- The repair of a holder moves. -/
def move (h : ι) (cursor : Cursor) : Repair ι :=
  { g with cursor := Function.update g.cursor h cursor }

/-- A holder starts its repair. -/
def start (h : ι) : Call (Repair ι) := g.move h <$> (g.chunk h).backwardsStart

/-- A holder sends the pair at `index`, if it is present. -/
def visit (h : ι) (index : ℕ) : Call (Repair ι) := do
  let pair ← (g.chunk h).pairAt index
  let g := g.move h (.past index)
  match pair with
  | none => return g
  | some (key, value) => return { g with network := g.network ++ pushes (servers h) key value }

/-- A holder goes on to the record before `index`. -/
def next (h : ι) (index : ℕ) : Call (Repair ι) := g.move h <$> (g.chunk h).backwardsNext index

/-- A message is delivered. -/
def deliver (m : Push ι) : Call (Option Error × Repair ι) := do
  let (e, c) ← (g.chunk m.holder).set (fnv1a64 m.key) m.key m.value
  return (e, ⟨Function.update g.chunk m.holder c, g.cursor, g.network.erase m⟩)

/-- What may happen while the holders repair. -/
inductive Event (ι : Type)
  | start (h : ι)
  | visit (h : ι)
  | next (h : ι)
  | deliver (m : Push ι)

/-- The event, with no `Set` denied, takes the group from `g` to `g'`. -/
def Steps : Event ι → Repair ι → Prop
  | .start h, g' => g.cursor h = .idle ∧ g.start h = .ok g'
  | .visit h, g' => ∃ index, g.cursor h = .at index ∧ g.visit servers h index = .ok g'
  | .next h, g' => ∃ index, g.cursor h = .past index ∧ g.next h index = .ok g'
  | .deliver m, g' => m ∈ g.network ∧ g.deliver m = .ok (none, g')

end Repair

/-! ## The invariant -/

/-- The iteration has still to come to the record at `off`. -/
def Cursor.Ahead : Cursor → ℕ → Prop
  | .idle, _ => True
  | .at index, off => off ≤ index
  | .past index, off => off < index
  | .done, _ => False

/-- The cursor stands on a record of the log. -/
def Cursor.On (log : List Record) : Cursor → Prop
  | .at index => ∃ r, recordAt log index = some r
  | .past index => ∃ r, recordAt log index = some r
  | _ => True

theorem Cursor.On.append {log : List Record} {cursor : Cursor} (h : cursor.On log) (r : Record) :
    cursor.On (log ++ [r]) := by
  cases cursor with
  | idle => trivial
  | «at» index => exact h.imp fun _ => recordAt_append_of_some _
  | past index => exact h.imp fun _ => recordAt_append_of_some _
  | done => trivial

namespace Repair

variable {ι : Type} {origin : ι → Dict} {g g' : Repair ι} {L : ι → Ledger}

/-- Some holder had a value of the key at least as new as `t`. -/
def Had (origin : ι → Dict) (k : Bytes) (t : Time) : Prop :=
  ∃ j w, origin j k = some w ∧ t ≤ unixTime w

/-- The holder `h` had a newest value of the key. -/
def Newest (origin : ι → Dict) (h : ι) (k v : Bytes) : Prop :=
  origin h k = some v ∧ ∀ j w, origin j k = some w → unixTime w ≤ unixTime v

/-- A value of the key as new as `t` is at the holder `i`, or on its way there. -/
def Reaches (g : Repair ι) (L : ι → Ledger) (k : Bytes) (t : Time) (i : ι) : Prop :=
  (∃ m ∈ g.network, m.holder = i ∧ m.key = k ∧ t ≤ unixTime m.value) ∨ (L i).Has k t

structure Inv (origin : ι → Dict) (g : Repair ι) (L : ι → Ledger) : Prop where
  refines : ∀ i, (g.chunk i).Refines fnv1a64 (L i)
  size_le : ∀ i, (L i).size ≤ 2 ^ 32
  plain : ∀ i, ∀ r ∈ (L i).log, PMap.Plain r
  on : ∀ i, (g.cursor i).On (L i).log
  /-- No value is newer than those at the start. -/
  below : ∀ i k t, (L i).Has k t → Had origin k t
  sent : ∀ m ∈ g.network, PMap.Plain ⟨m.key, m.value⟩ ∧ Had origin m.key (unixTime m.value)
  /-- The holder of a newest value keeps it, and comes by its record or has sent it to all. -/
  pushed : ∀ h k v, Newest origin h k v → ∃ off, recordAt (L h).log off = some ⟨k, v⟩
    ∧ (L h).dict k = some v
    ∧ ((g.cursor h).Ahead off ∨ ∀ i, Reaches g L k (unixTime v) i)

/-! ## The start -/

/-- The chunk was built by `Set`s alone, of keys whose hash words are not reserved, in a store that
a 32-bit word addresses. -/
def Built (c : PMap) : Prop := ∃ path size evs, size ≤ 2 ^ 32
  ∧ (∀ ev ∈ evs, ev.1.IsSet ∧ 2 ≤ (fnv1a64 ev.1.key).toUInt32)
  ∧ Run (PMap.Answered fnv1a64) (PMap.new path size) evs c

theorem Built.refines {c : PMap} (h : Built c) : ∃ L, c.Refines fnv1a64 L ∧ L.size ≤ 2 ^ 32
    ∧ ∀ r ∈ L.log, PMap.Plain r := by
  obtain ⟨path, size, evs, hsize, hevs, hrun⟩ := h
  have hnew := PMap.refines_new fnv1a64 path size
  have hrun := PMap.run_step hsize hrun hnew rfl
  refine ⟨(Ledger.new size).run fnv1a64 evs, ?_⟩
  refine hrun.simulates_on (R := fun c L => c.Refines fnv1a64 L ∧ L.size ≤ 2 ^ 32
    ∧ ∀ r ∈ L.log, PMap.Plain r) ?_ hevs ⟨hnew, hsize, nofun⟩
  rintro c ⟨op, e⟩ c' L ⟨hset, hkey⟩ ⟨hr, hsize, hplain⟩ hs
  refine ⟨(hs.refines hr).2.1, (Ledger.size_apply ..).trans_le hsize, fun r hmem => ?_⟩
  have heffect := hs.effect hr
  generalize L.apply fnv1a64 (op, e) = L' at heffect hmem
  cases heffect with
  | same => exact hplain r hmem
  | set hv hroom hold =>
    rcases List.mem_append.mp hmem with hmem | hmem
    · exact hplain r hmem
    · rw [List.mem_singleton.mp hmem]
      exact ⟨hv, hkey⟩
  | cas => exact absurd hset id
  | spoil => exact absurd hset id
  | bury => exact absurd hset id
  | erase => exact absurd hset id

theorem exists_inv (hbuilt : ∀ i, Built (g.chunk i)) (hidle : ∀ i, g.cursor i = .idle)
    (hnet : g.network = []) : ∃ L, Inv (fun i => (g.chunk i).value) g L := by
  choose L hr hsize hplain using fun i => (hbuilt i).refines
  refine ⟨L, hr, hsize, hplain, fun i => ?_, fun i k t hhas => ?_, fun m hm => ?_,
    fun h k v hnew => ?_⟩
  · rw [hidle i]
    trivial
  · obtain ⟨w, hw, ht⟩ := hhas
    exact ⟨i, w, (congrFun (hr i).value_eq k).trans hw, ht⟩
  · rw [hnet] at hm
    cases hm
  · have hdict : (L h).dict k = some v := (congrFun (hr h).value_eq k).symm.trans hnew.1
    obtain ⟨i, -, -, htarget⟩ := (hr h).index.mem k v hdict
    refine ⟨_, htarget, hdict, Or.inl ?_⟩
    rw [hidle h]
    trivial

/-! ## The events -/

theorem mem_pushes {servers : Fin 8 → Option ι} {key value : Bytes} {m : Push ι} :
    m ∈ pushes servers key value
      ↔ m.key = key ∧ m.value = value ∧ ∃ j, servers j = some m.holder := by
  simp only [pushes, List.mem_filterMap, List.mem_finRange, true_and, Option.map_eq_some_iff]
  constructor
  · rintro ⟨j, s, hs, rfl⟩
    exact ⟨rfl, rfl, j, hs⟩
  · rintro ⟨rfl, rfl, j, hs⟩
    exact ⟨j, m.holder, hs, rfl⟩

section
variable [DecidableEq ι]

/-- **A turn of an iteration**: it sends the messages `ps` and moves on, past no current record that
it has not sent to all. -/
theorem Inv.turn (h : Inv origin g L) {a : ι} {cursor : Cursor} (ps : List (Push ι))
    (hon : cursor.On (L a).log)
    (hsent : ∀ m ∈ ps, PMap.Plain ⟨m.key, m.value⟩ ∧ Had origin m.key (unixTime m.value))
    (hahead : ∀ off r, recordAt (L a).log off = some r → (L a).dict r.key = some r.val →
      (g.cursor a).Ahead off → cursor.Ahead off ∨ ∀ i, ⟨i, r.key, r.val⟩ ∈ ps) :
    Inv origin ⟨g.chunk, Function.update g.cursor a cursor, g.network ++ ps⟩ L := by
  have hmono : ∀ {k t i}, Reaches g L k t i →
      Reaches ⟨g.chunk, Function.update g.cursor a cursor, g.network ++ ps⟩ L k t i :=
    Or.imp_left fun ⟨m, hm, hrest⟩ => ⟨m, List.mem_append_left _ hm, hrest⟩
  refine ⟨h.refines, h.size_le, h.plain, fun i => ?_, h.below, fun m hm => ?_, fun b k v hnew => ?_⟩
  · dsimp only
    by_cases hi : i = a
    · subst hi
      rwa [Function.update_self]
    · rw [Function.update_of_ne hi]
      exact h.on i
  · exact (List.mem_append.mp hm).elim (h.sent m) (hsent m)
  · obtain ⟨off, hrec, hdict, hcase⟩ := h.pushed b k v hnew
    refine ⟨off, hrec, hdict, ?_⟩
    rcases hcase with hcase | hcase
    · dsimp only
      by_cases hb : b = a
      · subst hb
        rw [Function.update_self]
        refine (hahead off _ hrec hdict hcase).imp_right fun hall i => ?_
        exact Or.inl ⟨_, List.mem_append_right _ (hall i), rfl, rfl, le_rfl⟩
      · rw [Function.update_of_ne hb]
        exact Or.inl hcase
    · exact Or.inr fun i => hmono (hcase i)

/-- A turn that sends nothing. -/
theorem Inv.move (h : Inv origin g L) {a : ι} {cursor : Cursor} (hon : cursor.On (L a).log)
    (hahead : ∀ off r, recordAt (L a).log off = some r → (g.cursor a).Ahead off →
      cursor.Ahead off) : Inv origin (g.move a cursor) L := by
  have := h.turn [] hon nofun fun off r hr _ hold => Or.inl (hahead off r hr hold)
  rwa [List.append_nil] at this

theorem Inv.start (h : Inv origin g L) (a : ι) :
    ∃ g', g.start a = .ok g' ∧ (g.cursor a = .idle → Inv origin g' L) := by
  rcases (h.refines a).toDenotes.backwardsStart with ⟨hnil, heq⟩ | ⟨off, r, hr, hlast, heq⟩
  · refine ⟨g.move a .done, by rw [Repair.start, heq]; rfl, fun _ => h.move trivial ?_⟩
    intro off r hr
    rw [hnil] at hr
    cases hr
  · refine ⟨g.move a (.at off), by rw [Repair.start, heq]; rfl, fun _ => h.move ⟨r, hr⟩ ?_⟩
    intro off' r' hr' _
    have := add_size_le_of_recordAt hr'
    have := r'.twelve_le_size
    exact le_of_recordAt_lt hr hr' (by omega)

theorem Inv.next (h : Inv origin g L) {a : ι} {index : ℕ} (hcur : g.cursor a = .past index) :
    ∃ g', g.next a index = .ok g' ∧ Inv origin g' L := by
  obtain ⟨r, hr⟩ : ∃ r, recordAt (L a).log index = some r := by
    have := h.on a
    rwa [hcur] at this
  rcases (h.refines a).toDenotes.backwardsNext hr with ⟨rfl, heq⟩ | ⟨off, r', hr', hend, heq⟩
  · refine ⟨g.move a .done, by rw [Repair.next, heq]; rfl, h.move trivial ?_⟩
    intro off _ _ hold
    rw [hcur] at hold
    exact absurd hold (Nat.not_lt_zero off)
  · refine ⟨g.move a (.at off), by rw [Repair.next, heq]; rfl, h.move ⟨r', hr'⟩ ?_⟩
    intro off' _ hr'' hold
    rw [hcur] at hold
    exact le_of_recordAt_lt hr' hr'' (hend ▸ hold)

/-- **A turn on a record**: a pair that shows goes to all the holders. -/
theorem Inv.visit (h : Inv origin g L) {servers : ι → Fin 8 → Option ι}
    (hservers : ∀ a i, ∃ j, servers a j = some i) {a : ι} {index : ℕ}
    (hcur : g.cursor a = .at index) :
    ∃ g', g.visit servers a index = .ok g' ∧ Inv origin g' L := by
  obtain ⟨r, hr⟩ : ∃ r, recordAt (L a).log index = some r := by
    have := h.on a
    rwa [hcur] at this
  have hplain := h.plain a r (mem_of_recordAt hr)
  obtain ⟨pair, hpair, hcases, hshows⟩ := (h.refines a).toDenotes.pairAt_plain hr hplain
  rw [Repair.visit, hpair, Call.ok_bind]
  have hpast : ∀ off, off ≠ index → (g.cursor a).Ahead off → (Cursor.past index).Ahead off := by
    intro off hne hold
    rw [hcur] at hold
    exact lt_of_le_of_ne hold hne
  rcases hcases with rfl | rfl
  · -- it shows, so it is as new as the current value
    obtain ⟨v, hv, htake⟩ := hshows.mp rfl
    have htime : unixTime r.val = unixTime v := by rw [← unixTime_take, ← htake, unixTime_take]
    refine ⟨_, rfl, h.turn _ ⟨r, hr⟩ (fun m hm => ?_) fun off r' hr' hdict hold => ?_⟩
    · obtain ⟨hkey, hval, -⟩ := mem_pushes.mp hm
      rw [hkey, hval]
      exact ⟨hplain, h.below a r.key _ ⟨v, hv, htime.le⟩⟩
    · by_cases hoff : off = index
      · subst hoff
        obtain rfl := Option.some.inj (hr.symm.trans hr')
        exact Or.inr fun i => mem_pushes.mpr ⟨rfl, rfl, hservers a i⟩
      · exact Or.inl (hpast off hoff hold)
  · refine ⟨g.move a (.past index), rfl, ?_⟩
    have := h.turn [] (show (Cursor.past index).On (L a).log from ⟨r, hr⟩) nofun
      fun off r' hr' hdict hold => Or.inl (hpast off (fun hoff => ?_) hold)
    · rwa [List.append_nil] at this
    · subst hoff
      obtain rfl := Option.some.inj (hr.symm.trans hr')
      cases hshows.mpr ⟨_, hdict, rfl⟩

/-- The ledgers after a delivery. -/
def absorb (L : ι → Ledger) (m : Push ι) : ι → Ledger :=
  Function.update L m.holder ((L m.holder).apply fnv1a64 (.set m.key m.value, none))

theorem forall_absorb {R : ι → Ledger → Prop} {m : Push ι} (h : ∀ i, R i (L i))
    (hm : R m.holder ((L m.holder).apply fnv1a64 (.set m.key m.value, none))) (i : ι) :
    R i (absorb L m i) :=
  (Function.forall_update_iff L R).mpr ⟨hm, fun i _ => h i⟩ i

theorem has_absorb {m : Push ι} {i : ι} {k : Bytes} {t : Time} (h : (L i).Has k t) :
    (absorb L m i).Has k t :=
  forall_absorb (R := fun i l => (L i).Has k t → l.Has k t) (fun _ => id) (·.apply_set) i h

theorem recordAt_absorb {m : Push ι} {i : ι} {off : ℕ} {r : Record}
    (h : recordAt (L i).log off = some r) : recordAt (absorb L m i).log off = some r := by
  refine forall_absorb (R := fun i l => recordAt (L i).log off = some r →
    recordAt l.log off = some r) (fun _ => id) (fun h => ?_) i h
  rcases Ledger.log_apply_set fnv1a64 (L m.holder) m.key m.value with hlog | hlog <;> rw [hlog]
  · exact h
  · exact recordAt_append_of_some _ h

/-- What was on its way or at a holder still is, after a delivery. -/
theorem Reaches.absorb {m : Push ι} {k : Bytes} {t : Time} {i : ι} (h : Reaches g L k t i)
    (chunk : ι → PMap) :
    Reaches ⟨chunk, g.cursor, g.network.erase m⟩ (absorb L m) k t i := by
  rcases h with ⟨m', hm', rfl, rfl, ht⟩ | h
  · by_cases heq : m' = m
    · subst heq
      obtain ⟨w, hw, hle⟩ := (L m'.holder).has_apply_set fnv1a64 m'.key m'.value
      refine Or.inr ⟨w, ?_, ht.trans hle⟩
      rwa [Repair.absorb, Function.update_self]
    · exact Or.inl ⟨m', (List.mem_erase_of_ne heq).mpr hm', rfl, rfl, ht⟩
  · exact Or.inr (has_absorb h)

/-- **A delivery.** -/
theorem Inv.deliver (h : Inv origin g L) {m : Push ι} (hm : m ∈ g.network)
    (hx : g.deliver m = .ok (none, g')) : Inv origin g' (absorb L m) := by
  obtain ⟨⟨e, c⟩, hset, hx⟩ := Call.bind_eq_ok.mp hx
  cases hx
  have hstep : PMap.Step fnv1a64 (g.chunk m.holder) (.set m.key m.value, none) c :=
    PMap.Answered.step (h.size_le m.holder) (h.refines m.holder) ⟨trivial, hset⟩
  obtain ⟨hplain, hhad⟩ := h.sent m hm
  have hlog := Ledger.log_apply_set fnv1a64 (L m.holder) m.key m.value
  refine ⟨fun i => ?_, forall_absorb (R := fun _ l => l.size ≤ 2 ^ 32) h.size_le ?_,
    forall_absorb (R := fun _ l => ∀ r ∈ l.log, PMap.Plain r) h.plain ?_,
    forall_absorb (R := fun i l => (g.cursor i).On l.log) h.on ?_,
    forall_absorb (R := fun _ l => ∀ k t, l.Has k t → Had origin k t) h.below ?_,
    fun m' hm' => h.sent m' (List.mem_of_mem_erase hm'), fun b k v hnew => ?_⟩
  · dsimp only
    by_cases hi : i = m.holder
    · subst hi
      rw [absorb, Function.update_self, Function.update_self]
      exact (hstep.refines (h.refines _)).2.1
    · rw [absorb, Function.update_of_ne hi, Function.update_of_ne hi]
      exact h.refines i
  · exact (Ledger.size_apply ..).trans_le (h.size_le m.holder)
  · intro r hr
    rcases hlog with hlog | hlog <;> rw [hlog] at hr
    · exact h.plain m.holder r hr
    · rcases List.mem_append.mp hr with hr | hr
      · exact h.plain m.holder r hr
      · rwa [List.mem_singleton.mp hr]
  · rcases hlog with hlog | hlog <;> rw [hlog]
    · exact h.on m.holder
    · exact (h.on m.holder).append _
  · intro k t hnew
    rcases hnew.of_apply_set with hold | ⟨rfl, ht⟩
    · exact h.below m.holder k t hold
    · obtain ⟨j, w, hw, hle⟩ := hhad
      exact ⟨j, w, hw, ht.trans hle⟩
  · obtain ⟨off, hrec, hdict, hcase⟩ := h.pushed b k v hnew
    refine ⟨off, recordAt_absorb hrec, ?_, hcase.imp_right fun hall i => (hall i).absorb _⟩
    -- the message is not newer than a newest value
    refine forall_absorb (R := fun i l => (L i).dict k = some v → l.dict k = some v) (fun _ => id)
      (fun hold => Ledger.dict_apply_set_of_le hold fun hk => ?_) b hdict
    obtain ⟨j, w, hw, hle⟩ := hhad
    exact hle.trans (hnew.2 j w (hk ▸ hw))

/-- **One event**: the invariant holds on, and no key of a holder gets older. -/
theorem Inv.step (h : Inv origin g L) {servers : ι → Fin 8 → Option ι}
    (hservers : ∀ a i, ∃ j, servers a j = some i) {ev : Event ι} (hs : Steps servers g ev g') :
    ∃ L', Inv origin g' L' ∧ ∀ i k t, (L i).Has k t → (L' i).Has k t := by
  cases ev with
  | start a =>
    obtain ⟨g₁, hx, hinv⟩ := h.start a
    obtain rfl := Except.ok.inj (hx.symm.trans hs.2)
    exact ⟨L, hinv hs.1, fun _ _ _ => id⟩
  | visit a =>
    obtain ⟨index, hcur, hs⟩ := hs
    obtain ⟨g₁, hx, hinv⟩ := h.visit hservers hcur
    obtain rfl := Except.ok.inj (hx.symm.trans hs)
    exact ⟨L, hinv, fun _ _ _ => id⟩
  | next a =>
    obtain ⟨index, hcur, hs⟩ := hs
    obtain ⟨g₁, hx, hinv⟩ := h.next hcur
    obtain rfl := Except.ok.inj (hx.symm.trans hs)
    exact ⟨L, hinv, fun _ _ _ => id⟩
  | deliver m => exact ⟨absorb L m, h.deliver hs.1 hs.2, fun _ _ _ => has_absorb⟩

/-- **A run.** -/
theorem Inv.run {servers : ι → Fin 8 → Option ι} (hservers : ∀ a i, ∃ j, servers a j = some i)
    {evs : List (Event ι)} (hrun : Run (Steps servers) g evs g') :
    ∀ {L}, Inv origin g L → ∃ L', Inv origin g' L' ∧ ∀ i k t, (L i).Has k t → (L' i).Has k t := by
  induction hrun with
  | refl => exact fun h => ⟨_, h, fun _ _ _ => id⟩
  | cons hs _ ih =>
    intro L h
    obtain ⟨L₁, h₁, hgrow₁⟩ := h.step hservers hs
    obtain ⟨L₂, h₂, hgrow₂⟩ := ih h₁
    exact ⟨L₂, h₂, fun i k t hhas => hgrow₂ i k t (hgrow₁ i k t hhas)⟩

end

/-! ## The end -/

theorem Inv.has_of_value (h : Inv origin g L) {i : ι} {k v : Bytes}
    (hv : (g.chunk i).value k = some v) : (L i).Has k (unixTime v) :=
  ⟨v, (congrFun (h.refines i).value_eq k).symm.trans hv, le_rfl⟩

/-- **When all has been delivered, every holder has a newest value.** -/
theorem Inv.value_of_done (h : Inv origin g L) (hdone : ∀ i, g.cursor i = .done)
    (hnet : g.network = []) {a : ι} {k v : Bytes} (hnew : Newest origin a k v) (i : ι) :
    ((g.chunk i).value k).map unixTime = some (unixTime v) := by
  obtain ⟨off, -, -, hcase⟩ := h.pushed a k v hnew
  rw [hdone a] at hcase
  rcases (hcase.resolve_left id) i with ⟨m, hm, -⟩ | ⟨w, hw, hle⟩
  · rw [hnet] at hm
    cases hm
  · obtain ⟨j, w', hw', hle'⟩ := h.below i k _ ⟨w, hw, le_rfl⟩
    rw [(h.refines i).value_eq, hw, Option.map_some, Option.some.injEq]
    exact le_antisymm (hle'.trans (hnew.2 j w' hw')) hle

/-- Of finitely many holders one has a newest value of a key, if any has one. -/
theorem exists_newest [Finite ι] {k : Bytes} {t : Time} (h : Had origin k t) :
    ∃ a v, Newest origin a k v := by
  obtain ⟨j, w, hw, -⟩ := h
  obtain ⟨a, ha, hmax⟩ := Set.exists_max_image {i | origin i k ≠ none}
    (fun i => ((origin i k).map unixTime).getD 0) (Set.toFinite _)
    ⟨j, fun hnone => by cases hnone.symm.trans hw⟩
  obtain ⟨v, hv⟩ := Option.ne_none_iff_exists'.mp ha
  refine ⟨a, v, hv, fun i u hu => ?_⟩
  have := hmax i fun hnone => by cases hnone.symm.trans hu
  rwa [hu, hv] at this

/-- The timestamps the holders have of a key. -/
def times (g : Repair ι) (k : Bytes) : Set Time :=
  {t | ∃ i, ((g.chunk i).value k).map unixTime = some t}

/-- A newest value has the greatest of the timestamps. -/
theorem isGreatest_times {t : Time} {k : Bytes} : IsGreatest (g.times k) t
    ↔ ∃ a v, Newest (fun i => (g.chunk i).value) a k v ∧ unixTime v = t := by
  constructor
  · rintro ⟨⟨a, ha⟩, hmax⟩
    obtain ⟨v, hv, rfl⟩ := Option.map_eq_some_iff.mp ha
    exact ⟨a, v, ⟨hv, fun j w hw => hmax ⟨j, Option.map_eq_some_iff.mpr ⟨w, hw, rfl⟩⟩⟩, rfl⟩
  · rintro ⟨a, v, ⟨hv, hmax⟩, rfl⟩
    refine ⟨⟨a, Option.map_eq_some_iff.mpr ⟨v, hv, rfl⟩⟩, ?_⟩
    rintro t ⟨j, hj⟩
    obtain ⟨w, hw, rfl⟩ := Option.map_eq_some_iff.mp hj
    exact hmax j w hw

/-- Eight servers are all the holders there are. -/
theorem finite_of_servers {servers : Fin 8 → Option ι} (h : ∀ i, ∃ j, servers j = some i) :
    Finite ι := by
  choose f hf using h
  exact Finite.of_injective f fun i i' heq =>
    Option.some.inj ((hf i).symm.trans ((congrArg servers heq).trans (hf i')))

/-- **Full repair converges.**  When every holder has come to the end of its iteration and every
message has been delivered, every holder has exactly the keys some holder had at the start, each
with the largest timestamp any of them had; and on the way no timestamp ever decreases. -/
theorem repair_converges [DecidableEq ι] {servers : ι → Fin 8 → Option ι}
    (hservers : ∀ a i, ∃ j, servers a j = some i) {g₀ g₁ g : Repair ι} {evs₁ evs₂ : List (Event ι)}
    (hbuilt : ∀ i, Built (g₀.chunk i)) (hidle : ∀ i, g₀.cursor i = .idle) (hnet : g₀.network = [])
    (hrun₁ : Run (Steps servers) g₀ evs₁ g₁) (hrun₂ : Run (Steps servers) g₁ evs₂ g) :
    (∀ i k v, (g₁.chunk i).value k = some v →
      ∃ w, (g.chunk i).value k = some w ∧ unixTime v ≤ unixTime w)
    ∧ ((∀ i, g.cursor i = .done) → g.network = [] → ∀ i k t,
      ((g.chunk i).value k).map unixTime = some t ↔ IsGreatest (g₀.times k) t) := by
  obtain ⟨L₀, h₀⟩ := exists_inv hbuilt hidle hnet
  obtain ⟨L₁, h₁, -⟩ := h₀.run hservers hrun₁
  obtain ⟨L, h, hgrow⟩ := h₁.run hservers hrun₂
  refine ⟨fun i k v hv => ?_, fun hdone hempty i k t => ?_⟩
  · obtain ⟨w, hw, hle⟩ := hgrow i k _ (h₁.has_of_value hv)
    exact ⟨w, (congrFun (h.refines i).value_eq k).trans hw, hle⟩
  · have := finite_of_servers (hservers i)
    rw [isGreatest_times]
    constructor
    · intro hv
      obtain ⟨w, hw, -⟩ := Option.map_eq_some_iff.mp hv
      obtain ⟨a, v, hnew⟩ := exists_newest (h.below i k _ (h.has_of_value hw))
      refine ⟨a, v, hnew, ?_⟩
      exact Option.some.inj ((h.value_of_done hdone hempty hnew i).symm.trans hv)
    · rintro ⟨a, v, hnew, rfl⟩
      exact h.value_of_done hdone hempty hnew i

/-- The group after an event that may happen and meets no fault. -/
def after [DecidableEq ι] (servers : ι → Fin 8 → Option ι) (g : Repair ι) :
    Event ι → Option (Repair ι)
  | .start h => if g.cursor h = .idle then (g.start h).toOption else none
  | .visit h => match g.cursor h with
    | .at index => (g.visit servers h index).toOption
    | _ => none
  | .next h => match g.cursor h with
    | .past index => (g.next h index).toOption
    | _ => none
  | .deliver m => if m ∈ g.network then (g.deliver m).toOption.bind fun r =>
      if r.1 = none then some r.2 else none
    else none

theorem steps_of_after [DecidableEq ι] {servers : ι → Fin 8 → Option ι} {ev : Event ι}
    (h : g.after servers ev = some g') : Steps servers g ev g' := by
  cases ev with
  | start a =>
    obtain ⟨hcur, h⟩ := Option.ite_none_right_eq_some.mp h
    exact ⟨hcur, Call.eq_ok_of_toOption h⟩
  | visit a =>
    rw [after] at h
    split at h
    · next index hcur => exact ⟨index, hcur, Call.eq_ok_of_toOption h⟩
    · cases h
  | next a =>
    rw [after] at h
    split at h
    · next index hcur => exact ⟨index, hcur, Call.eq_ok_of_toOption h⟩
    · cases h
  | deliver m =>
    obtain ⟨hmem, h⟩ := Option.ite_none_right_eq_some.mp h
    obtain ⟨⟨e, g₁⟩, hx, h⟩ := Option.bind_eq_some_iff.mp h
    obtain ⟨rfl, h⟩ := Option.ite_none_right_eq_some.mp h
    obtain rfl := Option.some.inj h
    exact ⟨hmem, Call.eq_ok_of_toOption hx⟩

/-- A chunk with one pair, of time `t`. -/
def pairOf (t : ℕ) : PMap :=
  (((PMap.new "" 100).apply fnv1a64 (.set [1] (PMap.stamped t []))).toOption.map Prod.snd).getD
    (PMap.new "" 100)

theorem built_pairOf (t : ℕ) : Built (pairOf t) := by
  have hlen : (PMap.stamped t []).length = 8 := by simp [PMap.stamped]
  have happly : (PMap.new "" 100).apply fnv1a64 (.set [1] (PMap.stamped t [])) = .ok (none, _) :=
    PMap.apply_set_new fnv1a64 "" hlen ⟨by decide, by decide⟩
  have hanswered : PMap.Answered fnv1a64 (PMap.new "" 100)
      (.set [1] (PMap.stamped t []), none) (pairOf t) := by
    refine ⟨trivial, ?_⟩
    rw [pairOf, happly]
    rfl
  refine ⟨"", 100, _, by decide, ?_, .cons hanswered (.refl _)⟩
  intro ev hev
  rw [List.mem_singleton.mp hev]
  exact ⟨trivial, show 2 ≤ (fnv1a64 [1]).toUInt32 by decide⟩

/-- Two holders, with values of time 5 and 6 of one key. -/
def twoHolders : Repair (Fin 2) := ⟨fun i => pairOf (5 + i), fun _ => .idle, []⟩

def twoServers : Fin 2 → Fin 8 → Option (Fin 2) := fun _ j =>
  if h : j.val < 2 then some ⟨j.val, h⟩ else none

/-- The repair of `a`, then that of `b`, with the deliveries between and after their turns. -/
def twoRepairs (a b : Fin 2) : List (Event (Fin 2)) :=
  [.start a, .visit a, .next a, .start b, .visit b, .deliver ⟨b, [1], PMap.stamped 5 []⟩,
    .deliver ⟨a, [1], PMap.stamped 6 []⟩, .next b, .deliver ⟨a, [1], PMap.stamped 5 []⟩,
    .deliver ⟨b, [1], PMap.stamped 6 []⟩]

theorem repair_converges_two : ∃ g, Run (Steps twoServers) twoHolders (twoRepairs 0 1) g
    ∧ (∀ i k v, (twoHolders.chunk i).value k = some v →
      ∃ w, (g.chunk i).value k = some w ∧ unixTime v ≤ unixTime w)
    ∧ ∀ i k t, ((g.chunk i).value k).map unixTime = some t
      ↔ IsGreatest (twoHolders.times k) t := by
  have hobs : ((twoRepairs 0 1).foldlM (after twoServers) twoHolders).map
      (fun g => (g.cursor 0, g.cursor 1, g.network)) = some (.done, .done, []) := by
    decide +kernel
  obtain ⟨g, hg, hobs⟩ := Option.map_eq_some_iff.mp hobs
  obtain ⟨h0, hobs⟩ := Prod.mk.inj hobs
  obtain ⟨h1, hempty⟩ := Prod.mk.inj hobs
  have hrun : Run (Steps twoServers) twoHolders (twoRepairs 0 1) g :=
    (Run.of_foldlM hg).mono steps_of_after
  have hbuilt : ∀ i, Built (twoHolders.chunk i) := fun i => by
    dsimp only [twoHolders]
    exact built_pairOf _
  have hservers : ∀ a i, ∃ j, twoServers a j = some i := by decide
  obtain ⟨hgrow, hend⟩ := repair_converges hservers hbuilt (fun _ => rfl) rfl (.refl _) hrun
  exact ⟨g, hrun, hgrow, hend (Fin.forall_fin_two.mpr ⟨h0, h1⟩) hempty⟩

/-- **No turn and no delivery faults**, wherever the repairs are. -/
theorem repair_goes_on [DecidableEq ι] {servers : ι → Fin 8 → Option ι}
    (hservers : ∀ a i, ∃ j, servers a j = some i) {g₀ g : Repair ι} {evs : List (Event ι)}
    (hbuilt : ∀ i, Built (g₀.chunk i)) (hidle : ∀ i, g₀.cursor i = .idle) (hnet : g₀.network = [])
    (hrun : Run (Steps servers) g₀ evs g) :
    (∀ a, g.cursor a = .done ∨ ∃ ev ∈ [.start a, .visit a, .next a], ∃ g', Steps servers g ev g')
      ∧ ∀ m ∈ g.network, ∃ e g', g.deliver m = .ok (e, g') := by
  obtain ⟨L₀, h₀⟩ := exists_inv hbuilt hidle hnet
  obtain ⟨L, h, -⟩ := h₀.run hservers hrun
  constructor
  · intro a
    cases hcur : g.cursor a with
    | idle =>
      obtain ⟨g', hx, -⟩ := h.start a
      exact Or.inr ⟨.start a, by simp, g', hcur, hx⟩
    | «at» index =>
      obtain ⟨g', hx, -⟩ := h.visit hservers hcur
      exact Or.inr ⟨.visit a, by simp, g', index, hcur, hx⟩
    | past index =>
      obtain ⟨g', hx, -⟩ := h.next hcur
      exact Or.inr ⟨.next a, by simp, g', index, hcur, hx⟩
    | done => exact Or.inl rfl
  · intro m hm
    have hr := h.refines m.holder
    obtain ⟨e, c, hs⟩ := PMap.exists_step hr (hr.size_eq.trans_le (h.size_le m.holder))
      (show (Op.set m.key m.value).Timed from trivial)
    have hset : (g.chunk m.holder).set (fnv1a64 m.key) m.key m.value = .ok (e, c) := hs.2.1
    exact ⟨e, _, by rw [deliver, hset]; rfl⟩

end Repair

end Treeless
