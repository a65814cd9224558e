import Treeless.Core.Database
import Treeless.Server.Server

/-!
# Server/Node — a node as a server of dictionaries

    message ──processMessage──▸ response
                   │
                   ▼
    D ──Shelf.step──▸ D'

A node answers the messages of all its connections, while its rebalancer and its defragmenter work
on the chunks and heartbeats change its group.  Each message is one step of the reference
(`Shelf.step`), and its response is the one of the reference (`Replies`): a request reaches the core
as it is in the message, and what the core says reaches the response.
-/

namespace Treeless

/-- The request of a message to the core, if it is one. -/
def Message.op (m : Message) : Option Op :=
  if m.type = Operation.set ∨ m.type = Operation.asyncSet then some (.set m.key m.value)
  else if m.type = Operation.cas then some (.cas m.key m.value)
  else if m.type = Operation.del then some (.del m.key m.value)
  else none

/-- **The response of the reference** to a message, of which the core says `e` if it is a request:
its type and its value. -/
def Shelf.reply (D : Shelf) (numChunks : ℕ) (m : Message) (e : Option CoreError) :
    Operation × Bytes :=
  if m.type = Operation.get then
    (Operation.response, (D.get (getChunkID m.key numChunks) m.key).toOption.join.getD [])
  else if m.type = Operation.asyncSet then (0, [])
  else DBServer.outcome e

/-- The response `r` is that of the reference: it has the ID of the message; the core says what the
reference says, or that there is no room; and a `Get` shows the value of the reference. -/
structure Shelf.Replies (D : Shelf) (numChunks : ℕ) (m : Message) (synced : Bool)
    (e : Option CoreError) (r : Message) : Prop where
  id_eq : r.id = m.id
  said : ∀ op, m.op = some op → e = D.answer (getChunkID op.key numChunks) (fun _ => synced) op
    ∨ e = some (.pmap .storeLimit)
  reply_eq : m.op ≠ none ∨ (m.type = Operation.get ∧ 2 ≤ (fnv1a64 m.key).toUInt32) →
    (r.type, r.value) = D.reply numChunks m e

namespace DBServer

variable {marshal : ℕ → ℤ → ServerMap → Bytes} {s s' : DBServer} {m : Message}

/-- Only a `CAS` asks whether its chunk is synched. -/
theorem synched_eq {op : Op} (h : op.isCas = false) (present : Bool) :
    s.synched op present = .ok true := by
  rw [synched, h, Bool.and_false]
  rfl

/-- **A request** goes to the core, and what the core says to the response. -/
theorem respond_of_op {op : Op} (hop : m.op = some op) : s.respond marshal m = do
    let (e, s) ← s.request op
    return (if m.type = Operation.asyncSet then (0, []) else outcome e, s) := by
  rw [Message.op] at hop
  split at hop
  · next htype =>
    obtain rfl := Option.some.inj hop
    rcases htype with htype | htype <;> rw [respond, htype] <;> rfl
  · split at hop
    · next htype =>
      obtain rfl := Option.some.inj hop
      rw [respond, htype]
      rfl
    · split at hop
      · next htype =>
        obtain rfl := Option.some.inj hop
        rw [respond, htype]
        rfl
      · cases hop

/-- What a message does to the core that is not a request: nothing, or it protects a chunk. -/
def Spares (s s' : DBServer) : Prop :=
  s'.core = s.core ∨ ∃ cid e, s.core.chunkSetProtected cid = .ok (e, s'.core)

theorem spares_protect (s : DBServer) (key : Bytes) :
    (s.protect key).Returns fun r => s.Spares r.2 := by
  unfold protect
  refine .bind fun cid => .bind fun n => ?_
  split
  · intro r hr
    obtain ⟨⟨e, core⟩, hset, hr⟩ := Call.bind_eq_ok.mp hr
    cases hr
    exact Or.inr ⟨cid, e, hset⟩
  · exact .ok (Or.inl rfl)

/-- **Any other message** leaves the core as it is, or protects a chunk. -/
theorem spares_respond (hop : m.op = none) :
    (s.respond marshal m).Returns fun r => s.Spares r.2 := by
  have hset : m.type ≠ Operation.set := fun h => by simp [Message.op, h] at hop
  have hasync : m.type ≠ Operation.asyncSet := fun h => by simp [Message.op, h] at hop
  have hcas : m.type ≠ Operation.cas := fun h => by
    rw [Message.op, h] at hop
    cases hop
  have hdel : m.type ≠ Operation.del := fun h => by
    rw [Message.op, h] at hop
    cases hop
  rw [respond, if_neg hset, if_neg hasync, if_neg hcas, if_neg hdel]
  split
  · exact .bind fun _ => .ok (Or.inl rfl)
  split
  · exact .bind fun _ => .ok (Or.inl rfl)
  split
  · exact .ok (Or.inl rfl)
  split
  · exact .bind fun _ => .ok (Or.inl rfl)
  split
  · exact .bind fun _ => .bind fun _ => .ok (Or.inl rfl)
  split
  · exact s.spares_protect m.key
  split
  · exact .ok (Or.inl rfl)
  split
  · exact .ok (Or.inl rfl)
  · exact .ok (Or.inl rfl)

end DBServer

/-- A node and the files of its directory. -/
structure Node where
  server : DBServer
  files : List (String × File)

namespace Node

/-- The core of the node, in its directory. -/
def world (n : Node) : World := ⟨n.server.core, n.files⟩

/-- What happens at a node that is not stopped. -/
inductive Event
  /-- The response `r` to the message `m`; if it is a request, whether its chunk is synched and what
  the core says. -/
  | message (m : Message) (synced : Bool) (e : Option CoreError) (r : Message)
  /-- The rebalancer and the releaser change a chunk, or the defragmenter comes to it. -/
  | act (a : Act)
  | regroup (sg : ServerGroup)

/-- What the core is asked and says. -/
structure Says (s : DBServer) (op : Op) (synced : Bool) (e : Option CoreError) : Prop where
  timed : op.Timed
  synched : ∃ chunk, s.core.chunk (s.core.chunkIndex op.key) = .ok chunk
    ∧ s.synched op chunk.present = .ok synced
  answered : ∃ s', s.request op = .ok (e, s')

/-- The act is one of a running process. -/
def Upkeep : Act → Prop
  | .request _ _ _ => False
  | .reboot => False
  | _ => True

/-- The event takes the node from `n` to `n'`. -/
def Steps (marshal : ℕ → ℤ → ServerMap → Bytes) (n : Node) : Event → Node → Prop
  | .message m synced e r, n' => n.server.stopped = false
      ∧ (∀ op, m.op = some op → Says n.server op synced e)
      ∧ n.server.processMessage marshal m = .ok (r, n'.server) ∧ n'.files = n.files
  | .act a, n' => Upkeep a ∧ n.world.Acts a n'.world
  | .regroup sg, n' => n' = { n with server := { n.server with sg } }

/-- What an event is to the reference. -/
def Event.acts : Event → List Act
  | .message m synced e _ => (m.op.map fun op => .request (fun _ => synced) op e).toList
  | .act a => [a]
  | .regroup _ => []

section Keeps

variable {marshal : ℕ → ℤ → ServerMap → Bytes} {n n' : Node} {size numChunks : ℕ}
  {evs : List (Op × Option Error)} {D : Shelf}

/-- **A request** of a message is one to the core. -/
theorem Says.acts {op : Op} {synced : Bool} {e : Option CoreError} {s' : DBServer}
    (h : Says n.server op synced e) (hx : n.server.request op = .ok (e, s')) :
    n.world.Acts (.request (fun _ => synced) op e) ⟨s'.core, n.files⟩ := by
  obtain ⟨chunk, hchunk, hsynced⟩ := h.synched
  rw [DBServer.request, hchunk, Call.ok_bind, hsynced, Call.ok_bind] at hx
  obtain ⟨⟨e', core⟩, hcore, hx⟩ := Call.bind_eq_ok.mp hx
  cases hx
  exact ⟨h.timed, core, hcore, rfl⟩

/-- **A message**: its response is that of the reference. -/
theorem Steps.message {m : Message} {synced : Bool} {e : Option CoreError} {r : Message}
    (hs : n.Steps marshal (.message m synced e r) n') (h : n.world.Keeps size numChunks evs D)
    (ho : PMap.Orderly size evs) (hsize : size ≤ 2 ^ 28) (hpos : 0 < numChunks)
    (hev : ∀ a ∈ (Event.message m synced e r).acts, ∀ ev, a.asks = some ev → ev ∈ evs) :
    D.Replies numChunks m synced e r ∧ n'.world.Keeps size numChunks evs
      ((Event.message m synced e r).acts.foldl (Shelf.step numChunks) D) := by
  obtain ⟨hrun, hsaid, hx, hfiles⟩ := hs
  rw [DBServer.processMessage, if_neg (by rw [hrun]; exact Bool.false_ne_true)] at hx
  obtain ⟨⟨⟨type, value⟩, s'⟩, hrespond, hx⟩ := Call.bind_eq_ok.mp hx
  cases hx
  have hworld : n'.world = ⟨n'.server.core, n.files⟩ := by rw [world, hfiles]
  rw [hworld]
  cases hop : m.op with
  | none =>
    have hacts : (Event.message m synced e ⟨type, m.id, [], value⟩).acts = [] := by
      rw [Event.acts, hop]
      rfl
    rw [hacts]
    refine ⟨⟨rfl, fun op h' => (by rw [hop] at h'; cases h'), fun hget => ?_⟩, ?_⟩
    · rcases hget with hne | ⟨htype, hkey⟩
      · exact absurd hop hne
      · rw [DBServer.respond, if_pos htype] at hrespond
        obtain ⟨v, hv, hrespond⟩ := Call.bind_eq_ok.mp hrespond
        obtain ⟨hreply, -⟩ := Prod.mk.inj (Except.ok.inj hrespond)
        have hv' : v = D.get (getChunkID m.key numChunks) m.key :=
          Except.ok.inj (hv.symm.trans (h.get_eq hpos hkey))
        rw [Shelf.reply, if_pos htype, ← hv']
        exact hreply.symm
    · rcases DBServer.spares_respond hop _ hrespond with hcore | ⟨cid, e', hset⟩
      · dsimp only at hcore
        rw [hcore]
        exact h
      · have hs : n.world.Acts (.setProtected cid) ⟨n'.server.core, n.files⟩ := by
          change (do return { n.world with core := (← n.server.core.chunkSetProtected cid).2 }) = _
          rw [hset]
          rfl
        exact h.setProtected hs
  | some op =>
    have hacts : (Event.message m synced e ⟨type, m.id, [], value⟩).acts
        = [.request (fun _ => synced) op e] := by
      rw [Event.acts, hop]
      rfl
    rw [hacts] at hev ⊢
    obtain ⟨s₁, hrequest⟩ := (hsaid op hop).answered
    rw [DBServer.respond_of_op hop, hrequest, Call.ok_bind] at hrespond
    obtain ⟨hreply, rfl⟩ := Prod.mk.inj (Except.ok.inj hrespond)
    obtain ⟨hanswer, hkeeps⟩ := h.request ho hsize (hev _ List.mem_cons_self)
      ((hsaid op hop).acts hrequest)
    refine ⟨⟨rfl, fun op' hop' => ?_, fun _ => ?_⟩, hkeeps⟩
    · obtain rfl := Option.some.inj (hop.symm.trans hop')
      exact hanswer
    · have hget : m.type ≠ Operation.get := fun htype => by
        rw [Message.op, htype] at hop
        cases hop
      rw [Shelf.reply, if_neg hget]
      exact hreply.symm

/-- **One event.** -/
theorem Steps.keeps {ev : Event} (hs : n.Steps marshal ev n')
    (h : n.world.Keeps size numChunks evs D) (ho : PMap.Orderly size evs) (hsize : size ≤ 2 ^ 28)
    (hpos : 0 < numChunks) (hev : ∀ a ∈ ev.acts, ∀ e, a.asks = some e → e ∈ evs) :
    n'.world.Keeps size numChunks evs (ev.acts.foldl (Shelf.step numChunks) D) := by
  cases ev with
  | message m synced e r => exact (hs.message h ho hsize hpos hev).2
  | act a => exact h.step ho hsize (hev a List.mem_cons_self) hs.2
  | regroup sg =>
    obtain rfl := hs
    exact h

end Keeps

end Node

end Treeless
