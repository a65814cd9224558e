import Treeless.Client.ReadRepair
import Treeless.Com.Broker
import Treeless.Dist.Duplicate

/-!
# Client/Writes — what a write that was acknowledged promises

    Set ──letters──► holders ──acknowledgements──► written, errs
                        │
    Get ◄──answers──────┘

`Set` and `Del` send a request to every holder the client knows, and wait for each in turn; `Set`
reports success if one of them acknowledged it.  `Get` may ask other holders, in another order, and
hear from a part of them.  The two are tied together by any holder that both met: what it
acknowledged it has at least as new from then on, as long as nobody deletes or swaps the key, and so
has every answer it gives (`acknowledged_set_visible`).
-/

namespace Treeless

namespace Client

variable {ι : Type}

/-! ## The loops of `Set` and `Del` -/

/-- The errors of a write: there is no connection, or what the waiting ended with. -/
inductive WriteError
  | dial
  | wait (e : ClientError)
  deriving DecidableEq, Repr

/-- The request is sent to the server at a place. -/
def sent (outcome : ι → Outcome) (errs : Option WriteError) : Option ι → Option WriteError
  | none => errs
  | some i => match outcome i with
    | none => some .dial
    | some _ => errs

/-- The server at a place is waited for, if it was sent the request. -/
def waited (outcome : ι → Outcome) (r : Bool × Option WriteError) :
    Option ι → Bool × Option WriteError
  | none => r
  | some i => match outcome i with
    | none => r
    | some result => match result.err with
      | some e => (r.1, some (.wait e))
      | none => (true, r.2)

/-- **`Set`**: whether it was written, and the last of the errors. -/
def set (timeout : ℕ) (holders : List ι) (outcome : ι → Outcome) : Bool × Option WriteError :=
  let errs := (servers holders).foldl (sent outcome) none
  if 0 < timeout then (servers holders).foldl (waited outcome) (false, errs) else (false, errs)

/-- **`Del`** goes the same way, and does not say whether it was written. -/
def del (timeout : ℕ) (holders : List ι) (outcome : ι → Outcome) : Option WriteError :=
  (set timeout holders outcome).2

/-- The request of a `Set` at the time `now`. -/
def setOp (key value : Bytes) (now : ℕ) : Op := .set key (leBytes 8 now ++ value)

/-- The request of a `Del` at the time `now`. -/
def delOp (key : Bytes) (now : ℕ) : Op := .del key (leBytes 8 now)

/-! ## What they compute -/

/-- The empty places are passed over. -/
theorem foldl_servers {β : Type} (f : β → Option ι → β) (hf : ∀ b, f b none = b) (b : β)
    (holders : List ι) :
    (servers holders).foldl f b = holders.foldl (fun b i => f b (some i)) b := by
  have hpad : ∀ (n : ℕ) (b : β), (List.replicate n none).foldl f b = b := by
    intro n
    induction n with
    | zero => exact fun _ => rfl
    | succ n ih => exact fun b => by rw [List.replicate_succ, List.foldl_cons, hf, ih]
  rw [servers, List.foldl_append, hpad, List.foldl_map]

/-- The server was sent the request, and answered without an error. -/
def Acknowledged (outcome : ι → Outcome) (i : ι) : Prop := ∃ r, outcome i = some r ∧ r.err = none

section Loops

variable {outcome : ι → Outcome} {holders : List ι}

theorem waited_spec (outcome : ι → Outcome) (i : ι) (r : Bool × Option WriteError) :
    (Acknowledged outcome i ∧ waited outcome r (some i) = (true, r.2))
    ∨ (¬ Acknowledged outcome i ∧ (waited outcome r (some i)).1 = r.1
      ∧ (outcome i = none ∧ waited outcome r (some i) = r
        ∨ (waited outcome r (some i)).2 ≠ none)) := by
  rw [waited]
  cases ho : outcome i with
  | none =>
    refine Or.inr ⟨?_, rfl, Or.inl ⟨rfl, rfl⟩⟩
    rintro ⟨r, hr, -⟩
    cases ho.symm.trans hr
  | some result =>
    dsimp only
    cases he : result.err with
    | none => exact Or.inl ⟨⟨result, ho, he⟩, rfl⟩
    | some e =>
      refine Or.inr ⟨?_, rfl, Or.inr (Option.some_ne_none _)⟩
      rintro ⟨r, hr, hnone⟩
      obtain rfl := Option.some.inj (ho.symm.trans hr)
      cases he.symm.trans hnone

/-- **The second loop**: it is written if it was, or if one of the servers acknowledges; an error
stays an error. -/
theorem foldl_waited (outcome : ι → Outcome) : ∀ (holders : List ι) (r : Bool × Option WriteError),
    ((holders.foldl (fun r i => waited outcome r (some i)) r).1 = true
      ↔ r.1 = true ∨ ∃ i ∈ holders, Acknowledged outcome i)
    ∧ ((holders.foldl (fun r i => waited outcome r (some i)) r).2 = none →
      r.2 = none ∧ ∀ i ∈ holders, outcome i = none ∨ Acknowledged outcome i)
  | [], r => by simp
  | i :: holders, r => by
      obtain ⟨hwritten, herrs⟩ := foldl_waited outcome holders (waited outcome r (some i))
      rw [List.foldl_cons]
      rcases waited_spec outcome i r with ⟨hack, heq⟩ | ⟨hnot, hone, hrest⟩
      · refine ⟨by rw [hwritten, heq]; simp [hack], fun h => ?_⟩
        obtain ⟨hr, hall⟩ := herrs h
        rw [heq] at hr
        exact ⟨hr, List.forall_mem_cons.mpr ⟨Or.inr hack, hall⟩⟩
      · refine ⟨by rw [hwritten, hone]; simp [hnot], fun h => ?_⟩
        obtain ⟨hr, hall⟩ := herrs h
        rcases hrest with ⟨hnone, heq⟩ | herr
        · rw [heq] at hr
          exact ⟨hr, List.forall_mem_cons.mpr ⟨Or.inl hnone, hall⟩⟩
        · exact absurd hr herr

/-- **The first loop** ends without an error if every server was sent the request. -/
theorem foldl_sent : ∀ (holders : List ι) (errs : Option WriteError),
    holders.foldl (fun errs i => sent outcome errs (some i)) errs = none →
      errs = none ∧ ∀ i ∈ holders, outcome i ≠ none
  | [], errs, h => ⟨h, fun _ hi => (by cases hi)⟩
  | i :: holders, errs, h => by
      rw [List.foldl_cons] at h
      obtain ⟨herrs, hall⟩ := foldl_sent holders _ h
      rw [sent] at herrs
      cases ho : outcome i with
      | none =>
        rw [ho] at herrs
        cases herrs
      | some r =>
        rw [ho] at herrs
        exact ⟨herrs, List.forall_mem_cons.mpr ⟨ho ▸ Option.some_ne_none r, hall⟩⟩

/-- **What `Set` reports**: it is written if it waited and one of the holders acknowledged it; if
there is no error either, all of them did. -/
theorem set_spec {timeout : ℕ} {errs : Option WriteError}
    (h : set timeout holders outcome = (true, errs)) :
    (∃ i ∈ holders, Acknowledged outcome i)
      ∧ (errs = none → ∀ i ∈ holders, Acknowledged outcome i) := by
  rw [set] at h
  simp only [foldl_servers (sent outcome) (fun _ => rfl),
    foldl_servers (waited outcome) (fun _ => rfl)] at h
  split at h
  · obtain ⟨hwritten, herrs⟩ := foldl_waited outcome holders
      (false, holders.foldl (fun errs i => sent outcome errs (some i)) none)
    rw [h] at hwritten herrs
    refine ⟨(hwritten.mp rfl).resolve_left Bool.false_ne_true, fun hnone i hi => ?_⟩
    obtain ⟨hsent, hall⟩ := herrs hnone
    exact (hall i hi).resolve_left ((foldl_sent holders none hsent).2 i hi)
  · cases (Prod.mk.inj h).1

end Loops

/-! ## The model -/

/-- What a client is told of a request that ended with the error `e`. -/
def reply (e : Option Error) : Result :=
  let (type, value) := DBServer.outcome (e.map .pmap)
  .ofMessage ⟨type, 0, [], value⟩

/-- A request on its way to a holder, and the write that waits for the answer. -/
structure Letter (ι : Type) where
  holder : ι
  op : Op
  write : Option ℕ
  deriving DecidableEq

/-- A `Set` or a `Del`: its request, the holders there was no connection to, what the others have
answered so far, and what it returned. -/
structure Write (ι : Type) where
  op : Op
  timeout : ℕ
  refused : ι → Bool
  acks : ι → Option Result
  result : Option (Bool × Option WriteError)

/-- A `Get`: what the holders have answered so far, and what it had heard when it returned. -/
structure Read (ι : Type) where
  key : Bytes
  answer : ι → Option Bytes
  heard : Option (ι → Option Bytes)

/-- The holders, the requests on their way, and the calls of the clients, by their numbers. -/
structure Traffic (ι : Type) where
  store : ι → PMap
  network : List (Letter ι)
  writes : ℕ → Option (Write ι)
  reads : ℕ → Option (Read ι)

/-- What comes of the request to a holder; an answer that was lost, or is late, is a timeout. -/
def Write.outcome (w : Write ι) (lost : ι → Bool) (i : ι) : Outcome :=
  if w.refused i then none
  else match w.acks i with
    | none => some ⟨[], some .timeout⟩
    | some r => if lost i then some ⟨[], some .timeout⟩ else some r

namespace Traffic

inductive Event (ι : Type)
  /-- A client calls `Set` or `Del`; to some holders there is no connection. -/
  | write (n : ℕ) (op : Op) (timeout : ℕ) (refused : ι → Bool)
  /-- A holder serves a request. -/
  | serve (l : Letter ι) (e : Option Error)
  /-- A request is lost. -/
  | lose (l : Letter ι)
  /-- A write stops waiting, and returns. -/
  | finish (n : ℕ) (lost : ι → Bool)
  /-- A client calls `Get`. -/
  | read (n : ℕ) (key : Bytes)
  /-- A holder answers a `Get`. -/
  | answer (n : ℕ) (i : ι)
  /-- A `Get` stops waiting, sends its repairs, and returns. -/
  | collect (n : ℕ) (lost : ι → Bool)
  /-- A holder serves a request of somebody else: a `CAS`, a repair, a transfer. -/
  | other (i : ι) (op : Op) (e : Option Error)

/-- Nothing has been called. -/
def start (store : ι → PMap) : Traffic ι := ⟨store, [], fun _ => none, fun _ => none⟩

/-- The requests a write sends. -/
def letters (holders : List ι) (n : ℕ) (op : Op) (refused : ι → Bool) : List (Letter ι) :=
  (holders.filter fun i => !refused i).map fun i => ⟨i, op, some n⟩

/-- The repairs a `Get` sends; nobody waits for them. -/
def repairLetters (holders : List ι) (key : Bytes) (heard : ι → Option Bytes) : List (Letter ι) :=
  let g := gathered holders heard
  match g.value with
  | none => []
  | some v => (repairs (servers holders) g).map fun i => ⟨i, .set key v, none⟩

/-- A request by `Set` or `Del`, with its timestamp. -/
def Requests (op : Op) : Prop :=
  (∃ key value now, op = setOp key value now) ∨ ∃ key now, op = delOp key now

section Steps

variable [DecidableEq ι]

/-- A holder answers a write, if that waits for answers. -/
def ack (l : Letter ι) (e : Option Error) (n : ℕ) (w : Write ι) : Write ι :=
  if l.write = some n ∧ 0 < w.timeout ∧ w.result = none then
    { w with acks := Function.update w.acks l.holder (some (reply e)) }
  else w

/-- The event takes the traffic from `s` to `s'`; `view n` are the holders that the client of the
call `n` knows. -/
def Steps (view : ℕ → List ι) (s : Traffic ι) : Event ι → Traffic ι → Prop
  | .write n op timeout refused, s' => s.writes n = none ∧ Requests op
    ∧ s' = { s with
      writes := Function.update s.writes n (some ⟨op, timeout, refused, fun _ => none, none⟩)
      network := s.network ++ letters (view n) n op refused }
  | .serve l e, s' => l ∈ s.network
    ∧ ∃ c, PMap.Returned fnv1a64 (s.store l.holder) (l.op, e) c
      ∧ s' = { s with
        store := Function.update s.store l.holder c
        network := s.network.erase l
        writes := fun n => (s.writes n).map (ack l e n) }
  | .lose l, s' => s' = { s with network := s.network.erase l }
  | .finish n lost, s' => ∃ w, s.writes n = some w ∧ w.result = none
    ∧ s' = { s with
      writes := Function.update s.writes n
        (some { w with result := some (set w.timeout (view n) (w.outcome lost)) }) }
  | .read n key, s' => s.reads n = none
    ∧ s' = { s with reads := Function.update s.reads n (some ⟨key, fun _ => none, none⟩) }
  | .answer n i, s' => ∃ r v, s.reads n = some r ∧ r.answer i = none
    ∧ (s.store i).get (fnv1a64 r.key).toUInt32 r.key = .ok v
    ∧ s' = { s with
      reads := Function.update s.reads n
        (some { r with answer := Function.update r.answer i (some (v.getD [])) }) }
  | .collect n lost, s' => ∃ r, s.reads n = some r ∧ r.heard = none
    ∧ s' = { s with
      reads := Function.update s.reads n
        (some { r with heard := some fun i => if lost i then none else r.answer i })
      network := s.network
        ++ repairLetters (view n) r.key fun i => if lost i then none else r.answer i }
  | .other i op e, s' => ∃ c, PMap.Returned fnv1a64 (s.store i) (op, e) c
    ∧ s' = { s with store := Function.update s.store i c }

end Steps

end Traffic

/-- The holder has acknowledged the write. -/
def Write.Acked (w : Write ι) (i : ι) : Prop := ∃ r, w.acks i = some r ∧ r.err = none

theorem reply_err (e : Option Error) : (reply e).err = none ↔ e = none := by
  cases e with
  | none => exact iff_of_true rfl rfl
  | some e => exact iff_of_false (fun h => by cases h) (Option.some_ne_none e)

/-- What a write takes for an acknowledgement is one. -/
theorem Write.acked_of_acknowledged {w : Write ι} {lost : ι → Bool} {i : ι}
    (h : Acknowledged (w.outcome lost) i) : w.Acked i := by
  obtain ⟨r, hr, herr⟩ := h
  rw [outcome] at hr
  split at hr
  · cases hr
  · split at hr
    · obtain rfl := Option.some.inj hr
      cases herr
    · next r' hacks =>
      split at hr
      · obtain rfl := Option.some.inj hr
        cases herr
      · obtain rfl := Option.some.inj hr
        exact ⟨r', hacks, herr⟩

namespace Traffic

variable [DecidableEq ι] {view : ℕ → List ι} {s s' : Traffic ι} {ev : Event ι}

/-! ## What an event does -/

/-- An entry of a table is the one that was set, or as it was. -/
theorem update_eq_some {α : Type} {f : ℕ → Option α} {n₀ n : ℕ} {a b : α}
    (h : Function.update f n₀ (some a) n = some b) : n = n₀ ∧ b = a ∨ f n = some b := by
  by_cases hn : n = n₀
  · subst hn
    rw [Function.update_self] at h
    exact Or.inl ⟨rfl, (Option.some.inj h).symm⟩
  · rw [Function.update_of_ne hn] at h
    exact Or.inr h

/-- **What an event does to a write**: it starts, gets an answer, returns, or stays as it is. -/
theorem write_cases (hs : Steps view s ev s') {n : ℕ} {w' : Write ι} (hw : s'.writes n = some w') :
    (s.writes n = none ∧ Requests w'.op ∧ w'.acks = (fun _ => none) ∧ w'.result = none)
    ∨ ∃ w, s.writes n = some w ∧ (w' = w
      ∨ (∃ l e, ev = .serve l e ∧ l.write = some n
        ∧ w' = { w with acks := Function.update w.acks l.holder (some (reply e)) }
        ∧ w.result = none)
      ∨ ∃ lost, w' = { w with result := some (set w.timeout (view n) (w.outcome lost)) }) := by
  cases ev with
  | write n₀ op timeout refused =>
    obtain ⟨hfresh, hop, rfl⟩ := hs
    rcases update_eq_some hw with ⟨rfl, rfl⟩ | hold
    · exact Or.inl ⟨hfresh, hop, rfl, rfl⟩
    · exact Or.inr ⟨w', hold, Or.inl rfl⟩
  | serve l e =>
    obtain ⟨-, c, -, rfl⟩ := hs
    obtain ⟨w, hwrites, rfl⟩ := Option.map_eq_some_iff.mp hw
    refine Or.inr ⟨w, hwrites, ?_⟩
    rw [ack]
    split
    · next hack => exact Or.inr (Or.inl ⟨l, e, rfl, hack.1, rfl, hack.2.2⟩)
    · exact Or.inl rfl
  | finish n₀ lost =>
    obtain ⟨w, hwrites, -, rfl⟩ := hs
    rcases update_eq_some hw with ⟨rfl, rfl⟩ | hold
    · exact Or.inr ⟨w, hwrites, Or.inr (Or.inr ⟨lost, rfl⟩)⟩
    · exact Or.inr ⟨w', hold, Or.inl rfl⟩
  | lose l =>
    cases hs
    exact Or.inr ⟨w', hw, Or.inl rfl⟩
  | read n₀ key =>
    obtain ⟨-, rfl⟩ := hs
    exact Or.inr ⟨w', hw, Or.inl rfl⟩
  | answer n₀ i =>
    obtain ⟨r, v, -, -, -, rfl⟩ := hs
    exact Or.inr ⟨w', hw, Or.inl rfl⟩
  | collect n₀ lost =>
    obtain ⟨r, -, -, rfl⟩ := hs
    exact Or.inr ⟨w', hw, Or.inl rfl⟩
  | other i op e =>
    obtain ⟨c, -, rfl⟩ := hs
    exact Or.inr ⟨w', hw, Or.inl rfl⟩

/-- A write stays, with its request. -/
theorem exists_write (hs : Steps view s ev s') {n : ℕ} {w : Write ι} (hw : s.writes n = some w) :
    ∃ w', s'.writes n = some w' ∧ w'.op = w.op := by
  have hupdate : ∀ {n₀ : ℕ} {w₀ : Write ι}, (n = n₀ → w₀.op = w.op) →
      ∃ w', Function.update s.writes n₀ (some w₀) n = some w' ∧ w'.op = w.op := by
    intro n₀ w₀ hop
    by_cases hn : n = n₀
    · subst hn
      exact ⟨w₀, Function.update_self .., hop rfl⟩
    · exact ⟨w, (Function.update_of_ne hn ..).trans hw, rfl⟩
  cases ev with
  | write n₀ op timeout refused =>
    obtain ⟨hfresh, -, rfl⟩ := hs
    refine hupdate fun hn => ?_
    subst hn
    cases hfresh.symm.trans hw
  | serve l e =>
    obtain ⟨-, c, -, rfl⟩ := hs
    refine ⟨ack l e n w, Option.map_eq_some_iff.mpr ⟨w, hw, rfl⟩, ?_⟩
    rw [ack]
    split <;> rfl
  | finish n₀ lost =>
    obtain ⟨w₀, hw₀, -, rfl⟩ := hs
    refine hupdate fun hn => ?_
    subst hn
    obtain rfl := Option.some.inj (hw₀.symm.trans hw)
    rfl
  | lose l =>
    cases hs
    exact ⟨w, hw, rfl⟩
  | read n₀ key =>
    obtain ⟨-, rfl⟩ := hs
    exact ⟨w, hw, rfl⟩
  | answer n₀ i =>
    obtain ⟨r, v, -, -, -, rfl⟩ := hs
    exact ⟨w, hw, rfl⟩
  | collect n₀ lost =>
    obtain ⟨r, -, -, rfl⟩ := hs
    exact ⟨w, hw, rfl⟩
  | other i op e =>
    obtain ⟨c, -, rfl⟩ := hs
    exact ⟨w, hw, rfl⟩

/-- **What an event does to a `Get`**: it starts, gets an answer, returns, or stays as it is. -/
theorem read_cases (hs : Steps view s ev s') {n : ℕ} {r' : Read ι} (hr : s'.reads n = some r') :
    (s.reads n = none ∧ r'.answer = (fun _ => none) ∧ r'.heard = none)
    ∨ ∃ r, s.reads n = some r ∧ (r' = r
      ∨ (∃ i v, (s.store i).get (fnv1a64 r.key).toUInt32 r.key = .ok v
        ∧ r' = { r with answer := Function.update r.answer i (some (v.getD [])) })
      ∨ ∃ lost : ι → Bool,
        r' = { r with heard := some fun i => if lost i then none else r.answer i }) := by
  cases ev with
  | read n₀ key =>
    obtain ⟨hfresh, rfl⟩ := hs
    rcases update_eq_some hr with ⟨rfl, rfl⟩ | hold
    · exact Or.inl ⟨hfresh, rfl, rfl⟩
    · exact Or.inr ⟨r', hold, Or.inl rfl⟩
  | answer n₀ i =>
    obtain ⟨r, v, hreads, -, hget, rfl⟩ := hs
    rcases update_eq_some hr with ⟨rfl, rfl⟩ | hold
    · exact Or.inr ⟨r, hreads, Or.inr (Or.inl ⟨i, v, hget, rfl⟩)⟩
    · exact Or.inr ⟨r', hold, Or.inl rfl⟩
  | collect n₀ lost =>
    obtain ⟨r, hreads, -, rfl⟩ := hs
    rcases update_eq_some hr with ⟨rfl, rfl⟩ | hold
    · exact Or.inr ⟨r, hreads, Or.inr (Or.inr ⟨lost, rfl⟩)⟩
    · exact Or.inr ⟨r', hold, Or.inl rfl⟩
  | write n₀ op timeout refused =>
    obtain ⟨-, -, rfl⟩ := hs
    exact Or.inr ⟨r', hr, Or.inl rfl⟩
  | serve l e =>
    obtain ⟨-, c, -, rfl⟩ := hs
    exact Or.inr ⟨r', hr, Or.inl rfl⟩
  | lose l =>
    cases hs
    exact Or.inr ⟨r', hr, Or.inl rfl⟩
  | finish n₀ lost =>
    obtain ⟨w, -, -, rfl⟩ := hs
    exact Or.inr ⟨r', hr, Or.inl rfl⟩
  | other i op e =>
    obtain ⟨c, -, rfl⟩ := hs
    exact Or.inr ⟨r', hr, Or.inl rfl⟩

/-- The request that an event has a holder serve, if it does. -/
def Event.served : Event ι → Option Op
  | .serve l _ => some l.op
  | .other _ op _ => some op
  | _ => none

/-- **What an event does to the holders**: one of them serves a request, or nothing. -/
theorem store_cases (hs : Steps view s ev s') : s'.store = s.store
    ∨ ∃ i op e c, ev.served = some op ∧ PMap.Returned fnv1a64 (s.store i) (op, e) c
      ∧ s'.store = Function.update s.store i c := by
  cases ev with
  | serve l e =>
    obtain ⟨-, c, hc, rfl⟩ := hs
    exact Or.inr ⟨l.holder, l.op, e, c, rfl, hc, rfl⟩
  | other i op e =>
    obtain ⟨c, hc, rfl⟩ := hs
    exact Or.inr ⟨i, op, e, c, rfl, hc, rfl⟩
  | write n op timeout refused =>
    obtain ⟨-, -, rfl⟩ := hs
    exact Or.inl rfl
  | lose l =>
    cases hs
    exact Or.inl rfl
  | finish n lost =>
    obtain ⟨w, -, -, rfl⟩ := hs
    exact Or.inl rfl
  | read n key =>
    obtain ⟨-, rfl⟩ := hs
    exact Or.inl rfl
  | answer n i =>
    obtain ⟨r, v, -, -, -, rfl⟩ := hs
    exact Or.inl rfl
  | collect n lost =>
    obtain ⟨r, -, -, rfl⟩ := hs
    exact Or.inl rfl

/-- **What an event does to the network**: a new request that somebody waits for is that of the
write that sent it. -/
theorem letter_cases (hs : Steps view s ev s') {l : Letter ι} (hl : l ∈ s'.network) {n : ℕ}
    (hn : l.write = some n) : l ∈ s.network ∨ ∃ w, s'.writes n = some w ∧ w.op = l.op := by
  cases ev with
  | write n₀ op timeout refused =>
    obtain ⟨-, -, rfl⟩ := hs
    rcases List.mem_append.mp hl with hold | hnew
    · exact Or.inl hold
    · obtain ⟨i, -, rfl⟩ := List.mem_map.mp hnew
      obtain rfl := Option.some.inj hn
      exact Or.inr ⟨_, Function.update_self .., rfl⟩
  | serve l₀ e =>
    obtain ⟨-, c, -, rfl⟩ := hs
    exact Or.inl (List.mem_of_mem_erase hl)
  | lose l₀ =>
    cases hs
    exact Or.inl (List.mem_of_mem_erase hl)
  | finish n₀ lost =>
    obtain ⟨w, -, -, rfl⟩ := hs
    exact Or.inl hl
  | read n₀ key =>
    obtain ⟨-, rfl⟩ := hs
    exact Or.inl hl
  | answer n₀ i =>
    obtain ⟨r, v, -, -, -, rfl⟩ := hs
    exact Or.inl hl
  | collect n₀ lost =>
    obtain ⟨r, -, -, rfl⟩ := hs
    rcases List.mem_append.mp hl with hold | hnew
    · exact Or.inl hold
    · rw [repairLetters] at hnew
      split at hnew
      · cases hnew
      · obtain ⟨i, -, rfl⟩ := List.mem_map.mp hnew
        cases hn
  | other i op e =>
    obtain ⟨c, -, rfl⟩ := hs
    exact Or.inl hl

/-! ## The invariant -/

/-- What holds at every moment. -/
structure Inv (view : ℕ → List ι) (s : Traffic ι) : Prop where
  reached : ∀ i, (s.store i).Reached fnv1a64
  /-- Every request that a write waits for is its own. -/
  own : ∀ l ∈ s.network, ∀ n, l.write = some n → ∃ w, s.writes n = some w ∧ w.op = l.op
  stamped : ∀ n w k v, s.writes n = some w → w.op = .set k v → 8 ≤ v.length
  /-- A write that reports success was acknowledged. -/
  results : ∀ n w errs, s.writes n = some w → w.result = some (true, errs) →
    (∃ i ∈ view n, w.Acked i) ∧ (errs = none → ∀ i ∈ view n, w.Acked i)

omit [DecidableEq ι] in
theorem inv_start {store : ι → PMap} (h : ∀ i, (store i).Reached fnv1a64) :
    Inv view (start store) :=
  ⟨h, fun _ hl => (by cases hl), fun _ _ _ _ hw => (by cases hw), fun _ _ _ hw => (by cases hw)⟩

omit [DecidableEq ι] in
theorem length_of_requests {op : Op} (h : Requests op) {k v : Bytes} (hop : op = .set k v) :
    8 ≤ v.length := by
  rcases h with ⟨key, value, now, rfl⟩ | ⟨key, now, rfl⟩
  · obtain ⟨-, rfl⟩ := Op.set.inj hop
    rw [List.length_append, length_leBytes]
    exact Nat.le_add_right ..
  · cases hop

/-- **One event.** -/
theorem Inv.step (h : Inv view s) (hs : Steps view s ev s') : Inv view s' := by
  refine ⟨fun i => ?_, fun l hl n hn => ?_, fun n w' k v hw' hop => ?_,
    fun n w' errs hw' hres => ?_⟩
  · rcases store_cases hs with hsame | ⟨j, op, e, c, -, hc, hstore⟩
    · exact hsame ▸ h.reached i
    · rw [hstore]
      by_cases hi : i = j
      · subst hi
        rw [Function.update_self]
        exact (h.reached i).run (.cons hc (.refl _))
      · rw [Function.update_of_ne hi]
        exact h.reached i
  · rcases letter_cases hs hl hn with hold | hnew
    · obtain ⟨w, hw, hop⟩ := h.own l hold n hn
      obtain ⟨w', hw', hop'⟩ := exists_write hs hw
      exact ⟨w', hw', hop'.trans hop⟩
    · exact hnew
  · rcases write_cases hs hw' with ⟨-, hreq, -⟩ | ⟨w, hw, rfl | ⟨l, e, -, -, rfl, -⟩ | ⟨lost, rfl⟩⟩
    · exact length_of_requests hreq hop
    all_goals exact h.stamped n _ k v hw hop
  · rcases write_cases hs hw' with
      ⟨-, -, -, hnone⟩ | ⟨w, hw, rfl | ⟨l, e, -, -, rfl, hnone⟩ | ⟨lost, rfl⟩⟩
    · cases hnone.symm.trans hres
    · exact h.results n _ errs hw hres
    · cases hnone.symm.trans hres
    · obtain ⟨hsome, hall⟩ := set_spec (Option.some.inj hres)
      refine ⟨?_, fun hnone i hi => Write.acked_of_acknowledged (hall hnone i hi)⟩
      obtain ⟨i, hi, hack⟩ := hsome
      exact ⟨i, hi, Write.acked_of_acknowledged hack⟩

theorem inv_run {store : ι → PMap} (h : ∀ i, (store i).Reached fnv1a64) {evs : List (Event ι)}
    (hrun : Run (Steps view) (start store) evs s) : Inv view s :=
  hrun.invariant (fun h hs => h.step hs) (inv_start h)

/-! ## A key that is only set -/

variable {key : Bytes} {t : Time} {n : ℕ} {i : ι}

/-- The event has no holder delete the key or swap it. -/
def Event.Spares (key : Bytes) (ev : Event ι) : Prop := ∀ op, ev.served = some op → op.Spares key

/-- **No holder gets older.** -/
theorem Inv.holds (h : Inv view s) (hev : ev.Spares key) (hs : Steps view s ev s')
    (hold : (s.store i).Holds key t) : (s'.store i).Holds key t := by
  rcases store_cases hs with hsame | ⟨j, op, e, c, hop, hc, hstore⟩
  · exact hsame ▸ hold
  · rw [hstore]
    by_cases hi : i = j
    · subst hi
      rw [Function.update_self]
      exact hold.request (h.reached i) (hev op hop) hc
    · rwa [Function.update_of_ne hi]

/-- What acknowledged a `Set` of the key is not behind it. -/
def Told (key : Bytes) (n : ℕ) (s : Traffic ι) : Prop :=
  ∀ w v i, s.writes n = some w → w.op = .set key v → w.Acked i →
    (s.store i).Holds key (unixTime v)

/-- **One event**: an acknowledgement comes from a holder that has served the request. -/
theorem Told.step (h : Told key n s) (hinv : Inv view s) (hev : ev.Spares key)
    (hs : Steps view s ev s') : Told key n s' := by
  intro w' v i hw' hop hack
  rcases write_cases hs hw' with
    ⟨-, -, hnone, -⟩ | ⟨w, hw, rfl | ⟨l, e, rfl, hl, rfl, -⟩ | ⟨lost, rfl⟩⟩
  · obtain ⟨r, hr, -⟩ := hack
    rw [hnone] at hr
    cases hr
  · exact hinv.holds hev hs (h _ v i hw hop hack)
  · by_cases hi : i = l.holder
    · subst hi
      obtain ⟨r, hr, herr⟩ := hack
      dsimp only at hr
      rw [Function.update_self] at hr
      obtain rfl := Option.some.inj hr
      obtain rfl := (reply_err e).mp herr
      obtain ⟨hmem, c, hc, rfl⟩ := hs
      obtain ⟨w₀, hw₀, hown⟩ := hinv.own l hmem n hl
      obtain rfl := Option.some.inj (hw₀.symm.trans hw)
      rw [← hown, show w₀.op = .set key v from hop] at hc
      dsimp only
      rw [Function.update_self]
      exact (hinv.reached _).holds_of_set (hinv.stamped n w₀ key v hw hop) hc
        (fun h => by cases h) (fun h => by cases h)
    · obtain ⟨r, hr, herr⟩ := hack
      have hr : w.acks i = some r := (Function.update_of_ne hi ..).symm.trans hr
      exact hinv.holds hev hs (h w v i hw hop ⟨r, hr, herr⟩)
  · exact hinv.holds hev hs (h w v i hw hop hack)

/-- The answer has a timestamp, not before `t`. -/
def Late (t : Time) (v : Bytes) : Prop := 8 ≤ v.length ∧ t ≤ unixTime v

/-- What a `Get` of the key hears from the holder is not before `t`. -/
def Hears (key : Bytes) (t : Time) (i : ι) (n : ℕ) (s : Traffic ι) : Prop :=
  ∀ r, s.reads n = some r → r.key = key → (∀ v, r.answer i = some v → Late t v)
    ∧ ∀ heard, r.heard = some heard → ∀ v, heard i = some v → Late t v

omit [DecidableEq ι] in
/-- A holder that is not before `t` gives such an answer. -/
theorem Inv.late_of_get (h : Inv view s) (hold : (s.store i).Holds key t)
    (hkey : 2 ≤ (fnv1a64 key).toUInt32) {v : Option Bytes}
    (hget : (s.store i).get (fnv1a64 key).toUInt32 key = .ok v) : Late t (v.getD []) := by
  obtain ⟨w, hw, hle⟩ := hold
  obtain ⟨L, hr, -⟩ := (h.reached i).exists_refines
  have hdict : L.dict key = some w := (congrFun hr.value_eq key).symm.trans hw
  rw [hr.toDenotes.get_eq hkey, hdict] at hget
  obtain rfl := Except.ok.inj hget
  exact ⟨hr.index.stamped key w hdict, hle⟩

/-- **One event**, if the holder is not before `t`. -/
theorem Hears.step (h : Hears key t i n s) (hinv : Inv view s) (hold : (s.store i).Holds key t)
    (hkey : 2 ≤ (fnv1a64 key).toUInt32) (hs : Steps view s ev s') : Hears key t i n s' := by
  intro r' hr' hk
  rcases read_cases hs hr' with
    ⟨-, hanswer, hheard⟩ | ⟨r, hr, rfl | ⟨j, v, hget, rfl⟩ | ⟨lost, rfl⟩⟩
  · refine ⟨fun v hv => ?_, fun heard hh => ?_⟩
    · rw [hanswer] at hv
      cases hv
    · cases hheard.symm.trans hh
  · exact h _ hr hk
  · obtain ⟨hanswer, hheard⟩ := h r hr hk
    refine ⟨fun v' hv' => ?_, hheard⟩
    by_cases hi : i = j
    · subst hi
      dsimp only at hv'
      rw [Function.update_self] at hv'
      obtain rfl := Option.some.inj hv'
      obtain rfl : r.key = key := hk
      exact hinv.late_of_get hold hkey hget
    · exact hanswer v' ((Function.update_of_ne hi ..).symm.trans hv')
  · obtain ⟨hanswer, -⟩ := h r hr hk
    refine ⟨hanswer, fun heard hh v hv => ?_⟩
    obtain rfl := Option.some.inj hh
    dsimp only at hv
    split at hv
    · cases hv
    · exact hanswer v hv

/-! ## The end -/

variable {s₀ s₁ s₂ : Traffic ι} {evs₀ evs₁ evs₂ : List (Event ι)}

/-- From the call of a write to its return. -/
theorem told_run (hinv : Inv view s₀) (hfresh : s₀.writes n = none)
    (hrun : Run (Steps view) s₀ evs₁ s₁) (hevs : ∀ ev ∈ evs₁, ev.Spares key) :
    Inv view s₁ ∧ Told key n s₁ :=
  hrun.invariant_on (I := fun s => Inv view s ∧ Told key n s) (P := Event.Spares key)
    (fun hev h hs => ⟨h.1.step hs, h.2.step h.1 hev hs⟩) hevs
    ⟨hinv, fun w v i hw => (by cases hfresh.symm.trans hw)⟩

/-- From a moment at which a holder is not before `t` to the return of a later `Get`. -/
theorem hears_run (hinv : Inv view s₁) (hold : (s₁.store i).Holds key t)
    (hkey : 2 ≤ (fnv1a64 key).toUInt32) (hfresh : s₁.reads n = none)
    (hrun : Run (Steps view) s₁ evs₂ s₂) (hevs : ∀ ev ∈ evs₂, ev.Spares key) :
    Hears key t i n s₂ :=
  (hrun.invariant_on
    (I := fun s => Inv view s ∧ (s.store i).Holds key t ∧ Hears key t i n s)
    (P := Event.Spares key)
    (fun hev h hs => ⟨h.1.step hs, h.1.holds hev hs h.2.1, h.2.2.step h.1 h.2.1 hkey hs⟩) hevs
    ⟨hinv, hold, fun r hr => (by cases hfresh.symm.trans hr)⟩).2.2

omit [DecidableEq ι] in
/-- **A `Get` that hears a late answer** returns a value, and a time that is as late. -/
theorem get_late {holders : List ι} (hlen : holders.length ≤ 8) {heard : ι → Option Bytes}
    (hi : i ∈ holders) {v : Bytes} (hv : heard i = some v) (hlate : Late t v) :
    ∃ data l, get holders heard = (some data, some l, true) ∧ t ≤ l := by
  obtain ⟨hval, hlast, -⟩ := gathered_eq hlen heard
  obtain ⟨hstamp, hle⟩ := latest_spec (holders.map heard)
  have htime : replyTime (heard i) = some (unixTime v) := by rw [hv, replyTime_some hlate.1]
  obtain ⟨l, hl, hvl⟩ := hle _ (List.mem_map_of_mem hi) _ htime
  obtain ⟨w, hw, hwlen, rfl⟩ := exists_of_replyTime hl
  have hread : (gathered holders heard).read = true := by
    rw [gathered, gatherAll_eq (by rw [List.length_map, length_servers hlen])]
    dsimp only
    rw [List.any_eq_true]
    refine ⟨some v, ?_, rfl⟩
    rw [map_servers]
    exact List.mem_append_left _ (hv ▸ List.mem_map_of_mem hi)
  refine ⟨w.drop 8, unixTime w, ?_, hlate.2.trans hvl⟩
  rw [get, hval, hlast, hread, hw, replyTime_some hwlen]
  rfl

/-- **A write that was acknowledged is seen.**  Clients write, delete and read any keys, each over
the holders it knows; requests and answers arrive in any order, and some do not.  Take a `Set` that
has reported success: some holder has acknowledged it, and all the holders its client knew have, if
it reported no error.  Then a `Get` of the key that is called afterwards, and hears from any holder
that has acknowledged the `Set`, returns a value with a time not before that of the `Set`, as long
as no holder has been asked to delete the key or to swap it since the `Set` was called. -/
theorem acknowledged_set_visible (hview : ∀ n, (view n).length ≤ 8)
    (hkey : 2 ≤ (fnv1a64 key).toUInt32) {store : ι → PMap}
    (hstore : ∀ i, (store i).Reached fnv1a64)
    (hrun₀ : Run (Steps view) (start store) evs₀ s₀) (hfresh : s₀.writes n = none)
    (hrun₁ : Run (Steps view) s₀ evs₁ s₁) {w : Write ι} (hw : s₁.writes n = some w) {v : Bytes}
    (hop : w.op = .set key v) {errs : Option WriteError} (hres : w.result = some (true, errs))
    {m : ℕ} (hlater : s₁.reads m = none) (hrun₂ : Run (Steps view) s₁ evs₂ s₂) {r : Read ι}
    (hr : s₂.reads m = some r) (hread : r.key = key) {heard : ι → Option Bytes}
    (hheard : r.heard = some heard) (hevs : ∀ ev ∈ evs₁ ++ evs₂, ev.Spares key) :
    (∃ i ∈ view n, w.Acked i) ∧ (errs = none → ∀ i ∈ view n, w.Acked i)
    ∧ ∀ i, w.Acked i → i ∈ view m → heard i ≠ none →
      ∃ data l, get (view m) heard = (some data, some l, true) ∧ unixTime v ≤ l := by
  obtain ⟨hinv, htold⟩ := told_run (inv_run hstore hrun₀) hfresh hrun₁ fun ev hev =>
    hevs ev (List.mem_append_left _ hev)
  obtain ⟨hsome, hall⟩ := hinv.results n w errs hw hres
  refine ⟨hsome, hall, fun i hack hi hne => ?_⟩
  obtain ⟨v', hv'⟩ := Option.ne_none_iff_exists'.mp hne
  have hhears := hears_run hinv (htold w v i hw hop hack) hkey hlater hrun₂ fun ev hev =>
    hevs ev (List.mem_append_right _ hev)
  exact get_late (hview m) hi hv' ((hhears r hr hread).2 heard hheard v' hv')

/-- A `Set` that one of two holders acknowledges; there is no connection to the other. -/
def halfSet : List (Event Bool) :=
  [.write 0 (setOp [1] [7] 5) 500 fun i => !i, .serve ⟨true, setOp [1] [7] 5, some 0⟩ none,
    .finish 0 fun _ => false]

/-- A `Get` that one of two holders answers. -/
def halfGet : List (Event Bool) := [.read 0 [1], .answer 0 true, .collect 0 fun _ => false]

/-- The `Get` is called when the `Set` has returned. -/
theorem acknowledged_set_visible_half : ∃ (s₁ s₂ : Traffic Bool) (w : Write Bool) (r : Read Bool)
    (heard : Bool → Option Bytes),
    Run (Steps fun _ => [true, false]) (start fun _ => PMap.new "" 200) halfSet s₁
    ∧ Run (Steps fun _ => [true, false]) s₁ halfGet s₂
    ∧ s₁.writes 0 = some w ∧ w.result = some (true, some .dial) ∧ w.Acked true
    ∧ s₂.reads 0 = some r ∧ r.heard = some heard
    ∧ ∃ data l, get [true, false] heard = (some data, some l, true) ∧ 5 ≤ l := by
  obtain ⟨a, ⟨-, hset⟩, ha, hv⟩ := Reading.exists_set_five
  have hkey : 2 ≤ (fnv1a64 [1]).toUInt32 := by decide
  have hget : a.get (fnv1a64 [1]).toUInt32 [1] = .ok (some (PMap.stamped 5 [7])) := by
    obtain ⟨L, hr, -⟩ := ha.reached.exists_refines
    rw [hr.toDenotes.get_eq hkey, ← congrFun hr.value_eq, hv]
  have hstore : ∀ i : Bool, ((fun _ => PMap.new "" 200) i).Reached fnv1a64 := fun _ =>
    ⟨"", 200, [], by decide, .refl _⟩
  obtain ⟨s₁, hrun₁, w, hw, hop, hres, hack, hs₁, hnone⟩ : ∃ s₁,
      Run (Steps fun _ => [true, false]) (start fun _ => PMap.new "" 200) halfSet s₁
      ∧ ∃ w, s₁.writes 0 = some w ∧ w.op = .set [1] (PMap.stamped 5 [7])
        ∧ w.result = some (true, some .dial) ∧ w.Acked true ∧ s₁.store true = a
        ∧ s₁.reads 0 = none :=
    ⟨_, .cons ⟨rfl, Or.inl ⟨[1], [7], 5, rfl⟩, rfl⟩ (.cons ⟨List.mem_cons_self, a, hset, rfl⟩
      (.cons ⟨_, rfl, rfl, rfl⟩ (.refl _))), _, rfl, rfl, rfl, ⟨_, rfl, rfl⟩, rfl, rfl⟩
  obtain ⟨s₂, hrun₂, r, hr, hrkey, heard, hheard, htrue⟩ : ∃ s₂,
      Run (Steps fun _ => [true, false]) s₁ halfGet s₂
      ∧ ∃ r, s₂.reads 0 = some r ∧ r.key = [1]
        ∧ ∃ heard, r.heard = some heard ∧ heard true = some (PMap.stamped 5 [7]) :=
    ⟨_, .cons ⟨hnone, rfl⟩ (.cons ⟨_, _, rfl, rfl, hs₁ ▸ hget, rfl⟩
      (.cons ⟨_, rfl, rfl, rfl⟩ (.refl _))), _, rfl, rfl, _, rfl, rfl⟩
  have hevs : ∀ ev ∈ halfSet ++ halfGet, ev.Spares [1] := by
    simp [halfSet, halfGet, Event.Spares, Event.served, setOp, Op.Spares]
  have hfive : unixTime (PMap.stamped 5 [7]) = 5 := by decide +kernel
  refine ⟨s₁, s₂, w, r, heard, hrun₁, hrun₂, hw, hres, hack, hr, hheard, ?_⟩
  rw [← hfive]
  exact (acknowledged_set_visible (fun _ => by decide) hkey hstore (.refl _) rfl hrun₁ hw hop hres
    hnone hrun₂ hr hrkey hheard hevs).2.2 true hack (by decide) (htrue ▸ Option.some_ne_none _)

end Traffic

end Client

end Treeless
