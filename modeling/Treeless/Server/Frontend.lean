import Treeless.Com.Channel
import Treeless.Server.Node

/-!
# Server/Frontend — clients, connections and a node

    client ══requests══▸ Read ─▸ processMessage ─▸ Write ══responses══▸ client

Each connection is a channel of requests, a goroutine that serves them one by one, and a channel of
responses.  All of them serve the same node, in any interleaving.  Over a whole run

* the messages handled for a connection are the first of those its client has sent, in order;
* the responses its client has received are the first of those to the messages handled, in order;
* each response is the one of the reference at the moment its message was handled.

So the clients cannot tell the node from one dictionary for each chunk that handles one message at
a time.
-/

namespace Treeless

/-- Where the goroutine of a connection stands. -/
inductive Serving
  | reading
  | processing (m : Message)
  | writing (r : Message)

/-- The message it has read and not handled. -/
def Serving.taken : Serving → List Message
  | processing m => [m]
  | reading => []
  | writing _ => []

/-- The response it has not written. -/
def Serving.due : Serving → List Message
  | writing r => [r]
  | reading => []
  | processing _ => []

/-- A connection of a client. -/
structure Session where
  requests : Channel
  serving : Serving
  responses : Channel

def Session.new (accepts accepts' : List ℕ) : Session := ⟨.new accepts, .reading, .new accepts'⟩

/-- A node and its connections. -/
structure Frontend (ι : Type) where
  node : Node
  session : ι → Session

namespace Frontend

variable {ι : Type} [DecidableEq ι]

inductive Event (ι : Type)
  /-- The client writes a request, or its ticker flushes. -/
  | send (i : ι) (ev : Writer.Event)
  | read (i : ι) (finds : List ℕ) (m : Message)
  | process (i : ι) (m : Message) (synced : Bool) (e : Option CoreError) (r : Message)
  | write (i : ι) (r : Message)
  /-- The ticker of the node's end flushes. -/
  | tick (i : ι)
  | receive (i : ι) (finds : List ℕ) (r : Message)
  | act (a : Act)
  | regroup (sg : ServerGroup)

/-- Replaces a connection. -/
def put (S : Frontend ι) (i : ι) (l : Session) : Frontend ι :=
  { S with session := Function.update S.session i l }

/-- The event takes the service from `S` to `S'`. -/
def Steps (marshal : ℕ → ℤ → ServerMap → Bytes) (S : Frontend ι) : Event ι → Frontend ι → Prop
  | .send i ev, S' => ∃ requests, (S.session i).requests.Steps (.put ev) requests
      ∧ S' = S.put i { S.session i with requests }
  | .read i finds m, S' => (S.session i).serving = .reading
      ∧ ∃ requests, (S.session i).requests.Steps (.read finds m) requests
        ∧ S' = S.put i { S.session i with requests, serving := .processing m }
  | .process i m synced e r, S' => (S.session i).serving = .processing m
      ∧ ∃ node, S.node.Steps marshal (.message m synced e r) node
        ∧ S' = { S.put i { S.session i with
            serving := if r.type > 0 then .writing r else .reading } with node }
  | .write i r, S' => (S.session i).serving = .writing r
      ∧ ∃ responses, (S.session i).responses.Steps (.put (.write r)) responses
        ∧ S' = S.put i { S.session i with responses, serving := .reading }
  | .tick i, S' => ∃ responses, (S.session i).responses.Steps (.put .tick) responses
      ∧ S' = S.put i { S.session i with responses }
  | .receive i finds r, S' => ∃ responses, (S.session i).responses.Steps (.read finds r) responses
      ∧ S' = S.put i { S.session i with responses }
  | .act a, S' => ∃ node, S.node.Steps marshal (.act a) node ∧ S' = { S with node }
  | .regroup sg, S' => ∃ node, S.node.Steps marshal (.regroup sg) node ∧ S' = { S with node }

/-! ## What a run has done -/

/-- The requests that client `i` has written. -/
def sent (i : ι) (evs : List (Event ι)) : List Message := evs.filterMap fun
  | .send j (.write m) => if j = i then some m else none
  | _ => none

/-- The messages of client `i` that were handled, with their responses. -/
def handled (i : ι) (evs : List (Event ι)) : List (Message × Message) := evs.filterMap fun
  | .process j m _ _ r => if j = i then some (m, r) else none
  | _ => none

/-- The responses that client `i` has received. -/
def received (i : ι) (evs : List (Event ι)) : List Message := evs.filterMap fun
  | .receive j _ r => if j = i then some r else none
  | _ => none

/-- The responses to send: one of type `0` is dropped. -/
def answers (pairs : List (Message × Message)) : List Message :=
  (pairs.map Prod.snd).filter fun r => decide (0 < r.type)

/-- What an event is to the reference. -/
def Event.acts : Event ι → List Act
  | .process _ m synced e r => (Node.Event.message m synced e r).acts
  | .act a => [a]
  | _ => []

/-- The reference after a run. -/
def shelf (numChunks : ℕ) (evs : List (Event ι)) : Shelf :=
  (evs.flatMap Event.acts).foldl (Shelf.step numChunks) fun _ => none

end Frontend

/-! ## A connection -/

namespace Session

open Frontend (answers)

/-- The connection after its client has sent `sent`, the node has handled `handled`, and the client
has received `received`. -/
structure Serves (sent : List Message) (handled : List (Message × Message))
    (received : List Message) (l : Session) : Prop where
  asked : ∃ rest, sent = handled.map Prod.fst ++ l.serving.taken ++ rest
    ∧ l.requests.Carries (handled.map Prod.fst ++ l.serving.taken) rest
  answered : ∃ rest, answers handled = received ++ rest ++ l.serving.due
    ∧ l.responses.Carries received rest

variable {l : Session} {sent received : List Message} {handled : List (Message × Message)}

theorem serves_new (accepts accepts' : List ℕ) : (new accepts accepts').Serves [] [] [] :=
  ⟨⟨[], rfl, Channel.carries_new accepts⟩, [], rfl, Channel.carries_new accepts'⟩

theorem answers_append (pairs pairs' : List (Message × Message)) :
    answers (pairs ++ pairs') = answers pairs ++ answers pairs' := by
  rw [answers, List.map_append, List.filter_append]
  rfl

/-- The client writes a request, or its ticker flushes. -/
theorem Serves.send {ev : Writer.Event} {ch : Channel} (h : l.Serves sent handled received)
    (hs : l.requests.Steps (.put ev) ch) :
    Serves (sent ++ Writer.written [ev]) handled received { l with requests := ch } := by
  obtain ⟨rest, hsent, hcarries⟩ := h.asked
  refine ⟨⟨rest ++ Writer.written [ev], ?_, hcarries.put hs⟩, h.answered⟩
  rw [hsent, List.append_assoc]

/-- The goroutine reads a message. -/
theorem Serves.read {finds : List ℕ} {m : Message} {ch : Channel}
    (h : l.Serves sent handled received) (hsize : Sized sent) (hidle : l.serving = .reading)
    (hs : l.requests.Steps (.read finds m) ch) :
    Serves sent handled received { l with requests := ch, serving := .processing m } := by
  obtain ⟨rest, hsent, hcarries⟩ := h.asked
  obtain ⟨rest', hanswers, hback⟩ := h.answered
  rw [hidle] at hsent hcarries hanswers
  rw [Serving.taken, List.append_nil] at hsent hcarries
  obtain ⟨rest₁, rfl, h₁⟩ := hcarries.read
    (fun m' hm' => hsize m' (hsent ▸ List.mem_append_right _ hm')) hs
  exact ⟨⟨rest₁, by rw [hsent, Serving.taken, List.append_assoc]; rfl, h₁⟩, rest', hanswers, hback⟩

/-- The node handles it. -/
theorem Serves.process {m r : Message} (h : l.Serves sent handled received)
    (hbusy : l.serving = .processing m) :
    Serves sent (handled ++ [(m, r)]) received
      { l with serving := if r.type > 0 then .writing r else .reading } := by
  obtain ⟨rest, hsent, hcarries⟩ := h.asked
  obtain ⟨rest', hanswers, hback⟩ := h.answered
  rw [hbusy] at hsent hcarries hanswers
  have hlast : answers [(m, r)] = if r.type > 0 then [r] else [] := by
    by_cases hr : r.type > 0 <;> simp [answers, hr]
  have htaken : (if r.type > 0 then Serving.writing r else .reading).taken = [] := by
    split <;> rfl
  refine ⟨⟨rest, ?_, ?_⟩, rest', ?_, hback⟩
  · rw [hsent, htaken, List.map_append, List.append_nil]
    rfl
  · dsimp only
    rw [htaken, List.append_nil, List.map_append]
    exact hcarries
  · rw [answers_append, hanswers, hlast, Serving.due, List.append_nil]
    split <;> rfl

/-- The goroutine writes the response. -/
theorem Serves.write {r : Message} {ch : Channel} (h : l.Serves sent handled received)
    (hdue : l.serving = .writing r) (hs : l.responses.Steps (.put (.write r)) ch) :
    Serves sent handled received { l with responses := ch, serving := .reading } := by
  obtain ⟨rest, hsent, hcarries⟩ := h.asked
  obtain ⟨rest', hanswers, hback⟩ := h.answered
  rw [hdue] at hsent hcarries hanswers
  refine ⟨⟨rest, hsent, hcarries⟩, rest' ++ [r], ?_, hback.put hs⟩
  rw [hanswers, ← List.append_assoc]
  exact (List.append_nil _).symm

/-- The ticker of the node's end flushes. -/
theorem Serves.tick {ch : Channel} (h : l.Serves sent handled received)
    (hs : l.responses.Steps (.put .tick) ch) :
    Serves sent handled received { l with responses := ch } := by
  obtain ⟨rest', hanswers, hback⟩ := h.answered
  exact ⟨h.asked, rest', hanswers, List.append_nil rest' ▸ hback.put hs⟩

/-- The client reads a response. -/
theorem Serves.receive {finds : List ℕ} {r : Message} {ch : Channel}
    (h : l.Serves sent handled received) (hsize : Sized (answers handled))
    (hs : l.responses.Steps (.read finds r) ch) :
    Serves sent handled (received ++ [r]) { l with responses := ch } := by
  obtain ⟨rest', hanswers, hback⟩ := h.answered
  obtain ⟨rest₁, rfl, h₁⟩ := hback.read (fun m' hm' => hsize m' (hanswers ▸
    List.mem_append_left _ (List.mem_append_right _ hm'))) hs
  refine ⟨h.asked, rest₁, ?_, h₁⟩
  rw [hanswers, List.append_assoc received [r]]
  rfl

end Session

/-! ## All of them -/

namespace Frontend

variable {ι : Type} [DecidableEq ι] {marshal : ℕ → ℤ → ServerMap → Bytes} {S S' : Frontend ι}
  {i : ι} {evs : List (Event ι)}

theorem session_put_self (S : Frontend ι) (i : ι) (l : Session) : (S.put i l).session i = l :=
  Function.update_self ..

theorem session_put_of_ne (S : Frontend ι) {i j : ι} (l : Session) (h : j ≠ i) :
    (S.put i l).session j = S.session j := Function.update_of_ne h ..

/-- What connection `i` has done. -/
def Served (i : ι) (evs : List (Event ι)) (S : Frontend ι) : Prop :=
  (S.session i).Serves (sent i evs) (handled i evs) (received i evs)

theorem sent_snoc (ev : Event ι) : sent i (evs ++ [ev]) = sent i evs ++ sent i [ev] :=
  List.filterMap_append

theorem handled_snoc (ev : Event ι) : handled i (evs ++ [ev]) = handled i evs ++ handled i [ev] :=
  List.filterMap_append

theorem received_snoc (ev : Event ι) :
    received i (evs ++ [ev]) = received i evs ++ received i [ev] := List.filterMap_append

/-- What an event does for the connection. -/
theorem served_snoc {ev : Event ι} {ms rs : List Message} {pairs : List (Message × Message)}
    {l : Session} (hsession : S'.session i = l) (hsent : sent i evs ++ sent i [ev] = ms)
    (hhandled : handled i evs ++ handled i [ev] = pairs)
    (hreceived : received i evs ++ received i [ev] = rs) (h : l.Serves ms pairs rs) :
    S'.Served i (evs ++ [ev]) := by
  rwa [Served, sent_snoc, handled_snoc, received_snoc, hsent, hhandled, hreceived, hsession]

/-- An event that does nothing for the connection. -/
theorem Served.idle {ev : Event ι} (h : S.Served i evs) (hsession : S'.session i = S.session i)
    (hsent : sent i [ev] = []) (hhandled : handled i [ev] = [])
    (hreceived : received i [ev] = []) : S'.Served i (evs ++ [ev]) :=
  served_snoc hsession (by rw [hsent, List.append_nil]) (by rw [hhandled, List.append_nil])
    (by rw [hreceived, List.append_nil]) h

/-- **One event.** -/
theorem Served.step {ev : Event ι} (h : S.Served i evs) (hs : S.Steps marshal ev S')
    (hsent : Sized (sent i evs)) (hanswers : Sized (answers (handled i evs))) :
    S'.Served i (evs ++ [ev]) := by
  cases ev with
  | send j ev =>
    obtain ⟨ch, hs, rfl⟩ := hs
    by_cases hj : j = i
    · subst hj
      have hev : sent j [.send j ev] = Writer.written [ev] := by
        cases ev <;> simp [sent, Writer.written]
      exact served_snoc (session_put_self ..) (congrArg _ hev) (List.append_nil _)
        (List.append_nil _) (h.send hs)
    · refine h.idle (session_put_of_ne _ _ (Ne.symm hj)) ?_ rfl rfl
      cases ev <;> simp [sent, hj]
  | read j finds m =>
    obtain ⟨hidle, ch, hs, rfl⟩ := hs
    by_cases hj : j = i
    · subst hj
      exact served_snoc (session_put_self ..) (List.append_nil _) (List.append_nil _)
        (List.append_nil _) (h.read hsent hidle hs)
    · exact h.idle (session_put_of_ne _ _ (Ne.symm hj)) rfl rfl rfl
  | process j m synced e r =>
    obtain ⟨hbusy, node, -, rfl⟩ := hs
    by_cases hj : j = i
    · subst hj
      have hev : handled j [.process j m synced e r] = [(m, r)] := by simp [handled]
      exact served_snoc (session_put_self ..) (List.append_nil _) (congrArg _ hev)
        (List.append_nil _) (h.process hbusy)
    · refine h.idle (session_put_of_ne _ _ (Ne.symm hj)) rfl ?_ rfl
      simp [handled, hj]
  | write j r =>
    obtain ⟨hdue, ch, hs, rfl⟩ := hs
    by_cases hj : j = i
    · subst hj
      exact served_snoc (session_put_self ..) (List.append_nil _) (List.append_nil _)
        (List.append_nil _) (h.write hdue hs)
    · exact h.idle (session_put_of_ne _ _ (Ne.symm hj)) rfl rfl rfl
  | tick j =>
    obtain ⟨ch, hs, rfl⟩ := hs
    by_cases hj : j = i
    · subst hj
      exact served_snoc (session_put_self ..) (List.append_nil _) (List.append_nil _)
        (List.append_nil _) (h.tick hs)
    · exact h.idle (session_put_of_ne _ _ (Ne.symm hj)) rfl rfl rfl
  | receive j finds r =>
    obtain ⟨ch, hs, rfl⟩ := hs
    by_cases hj : j = i
    · subst hj
      have hev : received j [.receive j finds r] = [r] := by simp [received]
      exact served_snoc (session_put_self ..) (List.append_nil _) (List.append_nil _)
        (congrArg _ hev) (h.receive hanswers hs)
    · refine h.idle (session_put_of_ne _ _ (Ne.symm hj)) rfl rfl ?_
      simp [received, hj]
  | act a =>
    obtain ⟨node, -, rfl⟩ := hs
    exact h.idle rfl rfl rfl rfl
  | regroup sg =>
    obtain ⟨node, -, rfl⟩ := hs
    exact h.idle rfl rfl rfl rfl

/-- **A whole run**, for one connection. -/
theorem served_run {S₀ : Frontend ι} (hnew : S₀.Served i []) (hrun : Run (Steps marshal) S₀ evs S)
    (hsent : Sized (sent i evs)) (hanswers : Sized (answers (handled i evs))) : S.Served i evs := by
  have hall : Sized (sent i evs) → Sized (answers (handled i evs)) → S.Served i evs := by
    refine hrun.history (R := fun S evs => Sized (sent i evs) → Sized (answers (handled i evs)) →
      S.Served i evs) (fun _ _ => hnew) fun {S evs ev S'} h hs hsent hanswers => ?_
    have hsent' : Sized (sent i evs) := fun m hm => hsent m (by
      rw [sent_snoc]
      exact List.mem_append_left _ hm)
    have hanswers' : Sized (answers (handled i evs)) := fun m hm => hanswers m (by
      rw [handled_snoc, Session.answers_append]
      exact List.mem_append_left _ hm)
    exact (h hsent' hanswers').step hs hsent' hanswers'
  exact hall hsent hanswers

section Node

variable {size numChunks : ℕ}

/-- The requests of a run that came to a `PMap`. -/
def asked (evs : List (Event ι)) : List (Op × Option Error) :=
  (evs.flatMap Event.acts).filterMap Act.asks

/-- **One event**, at the node. -/
theorem Steps.keeps {reqs : List (Op × Option Error)} {D : Shelf} {ev : Event ι}
    (hs : S.Steps marshal ev S') (h : S.node.world.Keeps size numChunks reqs D)
    (ho : PMap.Orderly size reqs) (hsize : size ≤ 2 ^ 28) (hpos : 0 < numChunks)
    (hacts : ∀ a ∈ ev.acts, ∀ req, a.asks = some req → req ∈ reqs) :
    S'.node.world.Keeps size numChunks reqs (ev.acts.foldl (Shelf.step numChunks) D) := by
  cases ev with
  | send j ev =>
    obtain ⟨ch, -, rfl⟩ := hs
    exact h
  | read j finds m =>
    obtain ⟨-, ch, -, rfl⟩ := hs
    exact h
  | process j m synced e r =>
    obtain ⟨-, node, hs, rfl⟩ := hs
    exact hs.keeps h ho hsize hpos hacts
  | write j r =>
    obtain ⟨-, ch, -, rfl⟩ := hs
    exact h
  | tick j =>
    obtain ⟨ch, -, rfl⟩ := hs
    exact h
  | receive j finds r =>
    obtain ⟨ch, -, rfl⟩ := hs
    exact h
  | act a =>
    obtain ⟨node, hs, rfl⟩ := hs
    exact hs.keeps h ho hsize hpos hacts
  | regroup sg =>
    obtain ⟨node, hs, rfl⟩ := hs
    exact hs.keeps h ho hsize hpos hacts

/-- **The node keeps the reference.** -/
theorem keeps_run {S₀ : Frontend ι} {reqs : List (Op × Option Error)} (hsize : size ≤ 2 ^ 28)
    (hpos : 0 < numChunks) (ho : PMap.Orderly size reqs) (hreqs : ∀ ev ∈ asked evs, ev ∈ reqs)
    (hnew : S₀.node.world.Keeps size numChunks reqs fun _ => none)
    (hrun : Run (Steps marshal) S₀ evs S) :
    S.node.world.Keeps size numChunks reqs (shelf numChunks evs) := by
  have hall : (∀ ev ∈ asked evs, ev ∈ reqs) →
      S.node.world.Keeps size numChunks reqs (shelf numChunks evs) := by
    refine hrun.history (R := fun S evs => (∀ ev ∈ asked evs, ev ∈ reqs) →
      S.node.world.Keeps size numChunks reqs (shelf numChunks evs)) (fun _ => hnew)
      fun {S evs ev S'} h hs hreqs => ?_
    have hsnoc : shelf numChunks (evs ++ [ev])
        = ev.acts.foldl (Shelf.step numChunks) (shelf numChunks evs) := by
      rw [shelf, shelf, List.flatMap_append, List.foldl_append]
      simp
    have hkeeps := h fun req hreq => hreqs req (by
      rw [asked, List.flatMap_append, List.filterMap_append]
      exact List.mem_append_left _ hreq)
    have hacts : ∀ a ∈ ev.acts, ∀ req, a.asks = some req → req ∈ reqs := fun a ha req hask =>
      hreqs req (List.mem_filterMap.mpr ⟨a, by simp [ha], hask⟩)
    rw [hsnoc]
    exact hs.keeps hkeeps ho hsize hpos hacts
  exact hall hreqs

/-- A node with an empty directory, and connections on which nothing has happened. -/
def new (server : DBServer) (accepts accepts' : ι → List ℕ) : Frontend ι :=
  ⟨⟨server, []⟩, fun i => .new (accepts i) (accepts' i)⟩

omit [DecidableEq ι] in
theorem keeps_new {dbpath : String} {server : DBServer} (hdb : dbpath ≠ "")
    (hcore : server.core = .new dbpath size numChunks) (accepts accepts' : ι → List ℕ)
    (reqs : List (Op × Option Error)) :
    (new server accepts accepts').node.world.Keeps size numChunks reqs fun _ => none := by
  have hworld : (new server accepts accepts').node.world = ⟨.new dbpath size numChunks, []⟩ := by
    rw [← hcore]
    rfl
  rw [hworld]
  exact World.keeps_new hdb size numChunks reqs

/-- **The response to a message** is that of the reference, at the moment it is handled. -/
theorem replies_run {S₀ : Frontend ι} {pre post : List (Event ι)} {m : Message} {synced : Bool}
    {e : Option CoreError} {r : Message} (hsize : size ≤ 2 ^ 28) (hpos : 0 < numChunks)
    (ho : PMap.Orderly size (asked (pre ++ .process i m synced e r :: post)))
    (hnew : ∀ reqs, S₀.node.world.Keeps size numChunks reqs fun _ => none)
    (hrun : Run (Steps marshal) S₀ (pre ++ .process i m synced e r :: post) S) :
    (shelf numChunks pre).Replies numChunks m synced e r := by
  obtain ⟨S₁, hpre, hpost⟩ := hrun.split
  have hasked : ∀ req ∈ asked pre, req ∈ asked (pre ++ .process i m synced e r :: post) :=
    fun req hreq => by
      rw [asked, List.flatMap_append, List.filterMap_append]
      exact List.mem_append_left _ hreq
  have hkeeps := keeps_run hsize hpos ho hasked (hnew _) hpre
  cases hpost with
  | cons hs _ =>
    obtain ⟨-, node, hs, -⟩ := hs
    refine (hs.message hkeeps ho hsize hpos fun a ha req hask => ?_).1
    rw [asked, List.flatMap_append, List.flatMap_cons]
    exact List.mem_filterMap.mpr
      ⟨a, List.mem_append_right _ (List.mem_append_left _ ha), hask⟩

/-- A server with one chunk that is not present. -/
def solo : DBServer := ⟨.new "db" 64 1, .create 1, 1, false, [], []⟩

/-- A request for it. -/
def soloSet : Message := ⟨.set, 0, [1], PMap.stamped 900000000000 [7]⟩

/-- It is made present, and takes the pair. -/
theorem exists_soloSet : ∃ w s', World.Acts ⟨solo.core, []⟩ (.setPresent 0) w
    ∧ Node.Steps (fun _ _ _ => []) ⟨{ solo with core := w.core }, w.files⟩
      (.message soloSet true none ⟨.ok, 0, [], []⟩) ⟨s', w.files⟩ := by
  obtain ⟨w, hpresent, hobs⟩ : ∃ w, World.Acts ⟨solo.core, []⟩ (.setPresent 0) w
      ∧ ((DBServer.request { solo with core := w.core } (.set soloSet.key soloSet.value)).map
        Prod.fst).toOption = some none := ⟨_, rfl, by decide +kernel⟩
  obtain ⟨⟨e, s'⟩, hrequest, rfl⟩ := Call.map_eq_ok.mp (Call.eq_ok_of_toOption hobs)
  obtain ⟨chunk, hchunk, -⟩ := Call.bind_eq_ok.mp hrequest
  refine ⟨w, s', hpresent, rfl, fun op hop => ?_, ?_, rfl⟩
  · obtain rfl := Option.some.inj hop
    exact ⟨trivial, ⟨chunk, hchunk, DBServer.synched_eq rfl _⟩, s', hrequest⟩
  · have hop : soloSet.op = some (.set soloSet.key soloSet.value) := rfl
    rw [DBServer.processMessage, DBServer.respond_of_op hop, hrequest]
    rfl

/-- One request, with a timestamp after the reserved range. -/
theorem orderly_soloSet :
    PMap.Orderly 64 [(.set [1] (PMap.stamped 900000000000 [7]), none)] :=
  ⟨by decide +kernel, by decide +kernel, by decide +kernel, fun ev hev _ =>
    ⟨_, _, congrArg Prod.fst (List.mem_singleton.mp hev)⟩⟩

end Node

end Frontend

end Treeless
