import Treeless.PMap.Backwards
import Treeless.PMap.Reachable

/-!
# PMap/Forwards — the log, from its start, while it grows

    idle ──► at 0 ──the pair at 0──► past 0 ──► at i ──the pair at i──► past i ─ … ─► done

The chunk is not locked while the iteration hands out a pair, so any requests may come between two
of its turns: records become stale, pairs go and come back, buckets move, and the log grows in front
of the iteration.  A pair that is live was handed out, or its record is still ahead
(`Walk.Covers`); at the end nothing is ahead (`iterate_misses_nothing`).
-/

namespace Treeless

/-- An iteration under way over a `PMap`, and the pairs it has handed out. -/
structure Walk where
  pm : PMap
  cursor : Cursor
  sent : List (Bytes × Bytes)

namespace Walk

/-- An iteration about to start. -/
def start (pm : PMap) : Walk := ⟨pm, .idle, []⟩

/-- One turn of the loop of `Iterate`, with a callback that always continues. -/
def turn (w : Walk) : Call Walk :=
  match w.cursor with
  | .idle => .ok { w with cursor := .at 0 }
  | .at index =>
    if index < w.pm.st.length then do
      let pair ← w.pm.pairAt index
      return { w with cursor := .past index, sent := w.sent ++ pair.toList }
    else .ok { w with cursor := .done }
  | .past index => do
    let index ← w.pm.nextIndex index
    return { w with cursor := .at index }
  | .done => .ok w

/-- Until `Iterate` returns: a turn of it (`none`), or a request that another client makes. -/
def Steps (w : Walk) : Option (Op × Option Error) → Walk → Prop
  | none, w' => w.cursor ≠ .done ∧ w.turn = .ok w'
  | some ev, w' => w.cursor ≠ .done ∧ PMap.Returned fnv1a64 w.pm ev w'.pm
      ∧ w'.cursor = w.cursor ∧ w'.sent = w.sent

section Turns

variable {c : PMap} {index : ℕ} {sent : List (Bytes × Bytes)}

theorem steps_first : Steps ⟨c, .idle, sent⟩ none ⟨c, .at 0, sent⟩ := ⟨by rintro ⟨⟩, rfl⟩

/-- The turn that looks at a record. -/
theorem steps_look (hlt : index < c.st.length) {pair : Option (Bytes × Bytes)}
    (hpair : c.pairAt index = .ok pair) :
    Steps ⟨c, .at index, sent⟩ none ⟨c, .past index, sent ++ pair.toList⟩ := by
  refine ⟨by rintro ⟨⟩, ?_⟩
  rw [turn]
  dsimp only
  rw [if_pos hlt, hpair]
  rfl

/-- The turn to the next record. -/
theorem steps_move {index' : ℕ} (hnext : c.nextIndex index = .ok index') :
    Steps ⟨c, .past index, sent⟩ none ⟨c, .at index', sent⟩ := by
  refine ⟨by rintro ⟨⟩, ?_⟩
  rw [turn]
  dsimp only
  rw [hnext]
  rfl

/-- The turn behind the last record. -/
theorem steps_last (hge : ¬ index < c.st.length) :
    Steps ⟨c, .at index, sent⟩ none ⟨c, .done, sent⟩ := by
  refine ⟨by rintro ⟨⟩, ?_⟩
  rw [turn]
  dsimp only
  rw [if_neg hge]

end Turns

/-- **The turns are those of `Iterate`**: if no request comes, they hand out what it does. -/
theorem run_of_iterateFrom {c : PMap} {sent' : List (Bytes × Bytes)} :
    ∀ {fuel index : ℕ} {sent : List (Bytes × Bytes)},
      c.iterateFrom PMap.collect fuel index sent = .ok sent' →
      ∃ n, Run Steps ⟨c, .at index, sent⟩ (List.replicate n none) ⟨c, .done, sent'⟩
  | 0, _, _, h => by cases h
  | fuel + 1, index, sent, h => by
      rw [PMap.iterateFrom] at h
      split at h
      · next hlt =>
        obtain ⟨pair, hpair, h⟩ := Call.bind_eq_ok.mp h
        obtain ⟨index', hnext, h⟩ : ∃ index', c.nextIndex index = .ok index'
            ∧ c.iterateFrom PMap.collect fuel index' (sent ++ pair.toList) = .ok sent' := by
          cases pair with
          | none =>
            rw [Option.toList_none, List.append_nil]
            exact Call.bind_eq_ok.mp h
          | some p => exact Call.bind_eq_ok.mp h
        obtain ⟨n, hrun⟩ := run_of_iterateFrom h
        exact ⟨n + 2, .cons (steps_look hlt hpair) (.cons (steps_move hnext) hrun)⟩
      · next hge =>
        cases h
        exact ⟨1, .cons (steps_last hge) (.refl _)⟩

/-! ## What is ahead -/

/-- The first address that has not been looked at. -/
inductive Front (log : List Record) : Cursor → ℕ → Prop
  | idle : Front log .idle 0
  | «at» {index : ℕ} (h : Boundary log index) : Front log (.at index) index
  | past {index : ℕ} {r : Record} (h : recordAt log index = some r) :
      Front log (.past index) (index + r.size)
  | done : Front log .done (logSize log)

theorem Front.boundary {log : List Record} {cursor : Cursor} {front : ℕ}
    (h : Front log cursor front) : Boundary log front := by
  cases h with
  | idle => exact boundary_zero log
  | «at» h => exact h
  | past h => exact boundary_of_recordAt h
  | done => exact Or.inr rfl

theorem Front.append {log : List Record} {cursor : Cursor} {front : ℕ} (h : Front log cursor front)
    (hc : cursor ≠ .done) (r : Record) : Front (log ++ [r]) cursor front := by
  cases h with
  | idle => exact .idle
  | «at» h => exact .at (h.append [r])
  | past h => exact .past (recordAt_append_of_some [r] h)
  | done => exact absurd rfl hc

/-- The pair has been handed out, or its record is ahead. -/
def Accounts (log : List Record) (front : ℕ) (sent : List (Bytes × Bytes)) (k v : Bytes) : Prop :=
  (k, v) ∈ sent ∨ ∃ off, front ≤ off ∧ recordAt log off = some ⟨k, v⟩

/-- **Every live pair of an unreserved hash word is accounted for.** -/
structure Covers (w : Walk) (log : List Record) (m : Dict) (front : ℕ) : Prop where
  filing : w.pm.Filing log m
  isFront : Front log w.cursor front
  accounts : ∀ k v, m k = some v → 2 ≤ (fnv1a64 k).toUInt32 → Accounts log front w.sent k v

end Walk

/-- The pair at the record of a live value is shown, if the look at it returns. -/
theorem PMap.Filing.pairAt_live {c : PMap} {log : List Record} {m : Dict} {index : ℕ} {k v : Bytes}
    (h : c.Filing log m) (hr : recordAt log index = some ⟨k, v⟩) (hk : m k = some v)
    (hword : 2 ≤ (fnv1a64 k).toUInt32) :
    (c.pairAt index).Returns fun pair => pair = some (k, v) := by
  have hshows := h.lists.shows _ _ hr
  have hget := h.ordered.get_eq hword
  rw [hk] at hget
  rw [PMap.pairAt, PMap.isPresent, hshows.key_eq, Call.ok_bind, hget, Call.ok_bind]
  dsimp only
  rw [hshows.valSlice_eq, Call.ok_bind]
  by_cases hv : v.length < 8
  · rw [if_pos hv]
    exact .fault _
  · rw [if_neg hv, show c.st.first8 _ = _ from hshows.first8_eq (not_lt.mp hv), Call.ok_bind]
    dsimp only
    rw [Call.pure_eq, Call.ok_bind, if_pos (decide_eq_true rfl), Call.ok_bind, hshows.val_eq]
    exact .ok rfl

namespace Walk

variable {w w' : Walk} {log : List Record} {m : Dict} {front : ℕ}

theorem covers_start {pm : PMap} (h : pm.Filing log m) : (start pm).Covers log m 0 where
  filing := h
  isFront := .idle
  accounts := fun k v hk _ => by
    obtain ⟨i, -, -, hr⟩ := h.files.mem k v hk
    exact Or.inr ⟨_, Nat.zero_le _, hr⟩

theorem Accounts.append {sent : List (Bytes × Bytes)} {k v : Bytes}
    (h : Accounts log front sent k v) (r : Record) : Accounts (log ++ [r]) front sent k v :=
  h.imp_right fun ⟨off, hle, hr⟩ => ⟨off, hle, recordAt_append_of_some [r] hr⟩

/-- **A request between two turns**: the pair it writes is ahead. -/
theorem Covers.request (h : w.Covers log m front) (hc : w.cursor ≠ .done) {ev : Op × Option Error}
    {pm : PMap} (hs : PMap.Returned fnv1a64 w.pm ev pm) :
    ∃ log' m', ({ w with pm } : Walk).Covers log' m' front := by
  obtain ⟨log', m', h', hmoved⟩ := h.filing.apply hs
  obtain ⟨op, e⟩ := ev
  have hle : front ≤ logSize log := by
    rcases h.isFront.boundary with ⟨r, hr⟩ | heq
    · have := add_size_le_of_recordAt hr
      omega
    · exact heq.le
  -- the pair of the new record is ahead, the others are where they were
  have hput : ∀ (k₀ v₀ : Bytes) (k v : Bytes), Function.update m k₀ (some v₀) k = some v →
      2 ≤ (fnv1a64 k).toUInt32 → Accounts (log ++ [⟨k₀, v₀⟩]) front w.sent k v := by
    intro k₀ v₀ k v hk hword
    by_cases hkk : k = k₀
    · subst hkk
      rw [Function.update_self] at hk
      obtain rfl := Option.some.inj hk
      exact Or.inr ⟨logSize log, hle, recordAt_append_self ..⟩
    · rw [Function.update_of_ne hkk] at hk
      exact (h.accounts k v hk hword).append _
  have hdrop : ∀ (k₀ k v : Bytes), Function.update m k₀ none k = some v →
      2 ≤ (fnv1a64 k).toUInt32 → Accounts log front w.sent k v := by
    intro k₀ k v hk hword
    by_cases hkk : k = k₀
    · rw [hkk, Function.update_self] at hk
      cases hk
    · rw [Function.update_of_ne hkk] at hk
      exact h.accounts k v hk hword
  refine ⟨log', m', ?_⟩
  cases hmoved with
  | same => exact ⟨h', h.isFront, h.accounts⟩
  | set k v => exact ⟨h', h.isFront.append hc _, hput k v⟩
  | cas k v => exact ⟨h', h.isFront.append hc _, hput k _⟩
  | bury k v => exact ⟨h', h.isFront.append hc _, fun k' v' hk hw => (hdrop k k' v' hk hw).append _⟩
  | erase k v => exact ⟨h', h.isFront, hdrop k⟩

/-- **A turn**: what it passes has been handed out, if it is live. -/
theorem Covers.turn (h : w.Covers log m front) (hx : w.turn = .ok w') :
    ∃ front', w'.Covers log m front' := by
  obtain ⟨pm, cursor, sent⟩ := w
  obtain ⟨hfiling, hfront, haccounts⟩ := h
  have hlen := hfiling.lists.length_eq
  dsimp only at hfiling hfront haccounts hlen
  cases hfront with
  | idle =>
    cases hx
    exact ⟨0, hfiling, .at (boundary_zero log), haccounts⟩
  | done =>
    cases hx
    exact ⟨_, hfiling, .done, haccounts⟩
  | past hr =>
    obtain ⟨index', hnext, hx⟩ := Call.bind_eq_ok.mp hx
    cases hx
    have hnext' := PMap.nextIndex_of_shows (hfiling.lists.shows _ _ hr)
    obtain rfl := Except.ok.inj (hnext.symm.trans hnext')
    exact ⟨_, hfiling, .at (boundary_of_recordAt hr), haccounts⟩
  | «at» hb =>
    rw [Walk.turn] at hx
    dsimp only at hx
    split at hx
    · next hlt =>
      obtain ⟨pair, hpair, hx⟩ := Call.bind_eq_ok.mp hx
      cases hx
      obtain ⟨r, hr⟩ : ∃ r, recordAt log _ = some r := hb.resolve_right (by omega)
      refine ⟨_, hfiling, .past hr, fun k v hk hword => ?_⟩
      rcases haccounts k v hk hword with hsent | ⟨off, hle, hoff⟩
      · exact Or.inl (List.mem_append_left _ hsent)
      · by_cases hahead : front + r.size ≤ off
        · exact Or.inr ⟨off, hahead, hoff⟩
        · obtain rfl : off = front :=
            le_antisymm (le_of_recordAt_lt hr hoff (not_le.mp hahead)) hle
          obtain rfl : pair = some (k, v) := hfiling.pairAt_live hoff hk hword _ hpair
          exact Or.inl (List.mem_append_right _ List.mem_cons_self)
    · next hge =>
      cases hx
      obtain rfl : front = logSize log := hb.resolve_left fun ⟨r, hr⟩ => by
        have := add_size_le_of_recordAt hr
        have := r.twelve_le_size
        omega
      exact ⟨_, hfiling, .done, haccounts⟩

/-- **Along every interleaving** of turns and requests the live pairs are accounted for. -/
theorem covers_run {pm : PMap} {es : List (Option (Op × Option Error))}
    (hrun : Run Steps (start pm) es w) (hpm : ∃ log m, pm.Filing log m) :
    ∃ log m front, w.Covers log m front := by
  obtain ⟨log, m, h⟩ := hpm
  refine hrun.invariant (I := fun w => ∃ log m front, w.Covers log m front) ?_
    ⟨log, m, 0, covers_start h⟩
  rintro w (_ | ev) w' ⟨log, m, front, h⟩ hs
  · obtain ⟨front', h'⟩ := h.turn hs.2
    exact ⟨log, m, front', h'⟩
  · obtain ⟨hc, hret, hcursor, hsent⟩ := hs
    obtain ⟨log', m', h'⟩ := h.request hc hret
    obtain ⟨pm', cursor', sent'⟩ := w'
    dsimp only at hcursor hsent
    subst hcursor hsent
    exact ⟨log', m', front, h'⟩

/-- **A transfer misses nothing.**  Whatever requests come between the turns of an `Iterate` over a
reachable `PMap`, every pair that is live when it returns, of a key whose hash word is not reserved,
was handed out with this very value. -/
theorem iterate_misses_nothing {size : ℕ} (hsize : size ≤ 2 ^ 32) {pm : PMap}
    (hpm : PMap.Reachable size pm) {es : List (Option (Op × Option Error))}
    (hrun : Run Steps (start pm) es w) (hdone : w.cursor = .done) {k v : Bytes}
    (hword : 2 ≤ (fnv1a64 k).toUInt32)
    (hlive : w.pm.get (fnv1a64 k).toUInt32 k = .ok (some v)) : (k, v) ∈ w.sent := by
  obtain ⟨log, m, front, h⟩ := covers_run hrun (hpm.filing hsize)
  have hk : m k = some v := Except.ok.inj ((h.filing.ordered.get_eq hword).symm.trans hlive)
  rcases h.accounts k v hk hword with hsent | ⟨off, hle, hoff⟩
  · exact hsent
  · have hend := add_size_le_of_recordAt hoff
    have h12 := (Record.mk k v).twelve_le_size
    have hfront := h.isFront
    rw [hdone] at hfront
    cases hfront
    omega

/-- What an iteration sees of two pairs, the second of which is set when the first has been handed
out. -/
structure Overtaken (c₁ c₂ : PMap) : Prop where
  set₁ : PMap.Returned fnv1a64 (.new "" 100) (.set [1] (PMap.stamped 5 [7]), none) c₁
  length₁ : c₁.st.length = 22
  pair₁ : c₁.pairAt 0 = .ok (some ([1], PMap.stamped 5 [7]))
  set₂ : PMap.Returned fnv1a64 c₁ (.set [2] (PMap.stamped 6 [8]), none) c₂
  length₂ : c₂.st.length = 44
  next₁ : c₂.nextIndex 0 = .ok 22
  pair₂ : c₂.pairAt 22 = .ok (some ([2], PMap.stamped 6 [8]))
  next₂ : c₂.nextIndex 22 = .ok 44
  live₁ : c₂.get (fnv1a64 [1]).toUInt32 [1] = .ok (some (PMap.stamped 5 [7]))
  live₂ : c₂.get (fnv1a64 [2]).toUInt32 [2] = .ok (some (PMap.stamped 6 [8]))

theorem exists_overtaken : ∃ c₁ c₂, Overtaken c₁ c₂ := by
  have hobs : ((PMap.new "" 100).apply fnv1a64 (.set [1] (PMap.stamped 5 [7])) >>= fun p₁ =>
      p₁.2.apply fnv1a64 (.set [2] (PMap.stamped 6 [8])) >>= fun p₂ => (.ok (p₁.1, p₂.1,
        decide (p₁.2.st.length = 22 ∧ p₁.2.pairAt 0 = .ok (some ([1], PMap.stamped 5 [7]))
          ∧ p₂.2.st.length = 44 ∧ p₂.2.nextIndex 0 = .ok 22
          ∧ p₂.2.pairAt 22 = .ok (some ([2], PMap.stamped 6 [8])) ∧ p₂.2.nextIndex 22 = .ok 44
          ∧ p₂.2.get (fnv1a64 [1]).toUInt32 [1] = .ok (some (PMap.stamped 5 [7]))
          ∧ p₂.2.get (fnv1a64 [2]).toUInt32 [2] = .ok (some (PMap.stamped 6 [8]))))
        : Call (Option Error × Option Error × Bool))) = .ok (none, none, true) := by
    decide +kernel
  obtain ⟨⟨e₁, c₁⟩, hset₁, hobs⟩ := Call.bind_eq_ok.mp hobs
  obtain ⟨⟨e₂, c₂⟩, hset₂, hobs⟩ := Call.bind_eq_ok.mp hobs
  obtain ⟨rfl, hobs⟩ := Prod.mk.inj (Except.ok.inj hobs)
  obtain ⟨rfl, hobs⟩ := Prod.mk.inj hobs
  obtain ⟨hlen₁, hpair₁, hlen₂, hnext₁, hpair₂, hnext₂, hlive₁, hlive₂⟩ := of_decide_eq_true hobs
  exact ⟨c₁, c₂, hset₁, hlen₁, hpair₁, hset₂, hlen₂, hnext₁, hpair₂, hnext₂, hlive₁, hlive₂⟩

/-- The second pair is set between two turns, and handed out. -/
theorem iterate_misses_nothing_overtaken : ∃ w, Run Steps (start (.new "" 100))
      [some (.set [1] (PMap.stamped 5 [7]), none), none, none,
        some (.set [2] (PMap.stamped 6 [8]), none), none, none, none, none] w
    ∧ w.cursor = .done ∧ ([1], PMap.stamped 5 [7]) ∈ w.sent
    ∧ ([2], PMap.stamped 6 [8]) ∈ w.sent := by
  obtain ⟨c₁, c₂, h⟩ := exists_overtaken
  have hlen₁ := h.length₁
  have hlen₂ := h.length₂
  have hset₁ : Steps (start (.new "" 100)) (some (.set [1] (PMap.stamped 5 [7]), none))
      ⟨c₁, .idle, []⟩ := ⟨by rintro ⟨⟩, h.set₁, rfl, rfl⟩
  have hset₂ : Steps ⟨c₁, .past 0, [] ++ [([1], PMap.stamped 5 [7])]⟩
      (some (.set [2] (PMap.stamped 6 [8]), none))
      ⟨c₂, .past 0, [] ++ [([1], PMap.stamped 5 [7])]⟩ := ⟨by rintro ⟨⟩, h.set₂, rfl, rfl⟩
  have hwalk := Run.cons hset₁ (.cons steps_first (.cons (steps_look (by omega) h.pair₁)
    (.cons hset₂ (.cons (steps_move h.next₁) (.cons (steps_look (by omega) h.pair₂)
    (.cons (steps_move h.next₂) (.cons (steps_last (by omega)) (.refl _))))))))
  exact ⟨_, hwalk, rfl,
    iterate_misses_nothing (by decide) (.new "") hwalk rfl (by decide) h.live₁,
    iterate_misses_nothing (by decide) (.new "") hwalk rfl (by decide) h.live₂⟩

end Walk

end Treeless
