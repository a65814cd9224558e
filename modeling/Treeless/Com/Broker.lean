import Treeless.Server.Server

/-!
# Com/Broker — requests and responses on one connection

A client sends its messages to the broker of the connection; one with a timeout brings a channel of
capacity one, from a pool, on which it waits for the result.  Three goroutines share `waits`:

    To world     takes a message, gives it the next ID (32 bits), registers its channel in `waits`
    From world   takes the channel of a response out of `waits`, then sends the result on it
    Ticker       takes the channels whose time is over out of `waits`, and sends them an error

`To world` does the same as the ticker to all that is left, when the connection is closed.  Which
IDs time out, and when, is the queue's affair (`Com/Queue`): here any may, at any time.  Responses
arrive in any order and any number of times.

The state keeps what nobody stores: to which message a response was made, which request took a
channel last, and the results that were sent on a channel while it was a request's.
-/

namespace Treeless

/-- The errors of a request. -/
inductive ClientError
  | timeout
  | closed
  | response (value : Bytes)
  | invalid (type : Operation)
  deriving DecidableEq, Repr

/-- The text of an error; `ends` names the two ends of the connection. -/
def ClientError.text (ends : String) : ClientError → String
  | timeout => "Timeout" ++ ends
  | closed => "Connection closed => fast timeout" ++ ends
  | response value => "Response error: " ++ bytesText value
  | invalid type => "Invalid response operation code: " ++ toString type.toNat

/-- The result of a request, as a server returned it. -/
structure Result where
  value : Bytes
  err : Option ClientError
  deriving DecidableEq, Repr

namespace Result

/-- The result a response gives. -/
def ofMessage (m : Message) : Result :=
  if m.type = Operation.response then ⟨m.value, none⟩
  else if m.type = Operation.ok then ⟨[], none⟩
  else if m.type = Operation.err then ⟨[], some (.response m.value)⟩
  else ⟨[], some (.invalid m.type)⟩

/-- The request timed out, or the connection was closed. -/
def IsLocal (r : Result) : Prop := r.err = some .timeout ∨ r.err = some .closed

end Result

/-- What a client sends to the broker. -/
structure BrokerMsg where
  mess : Message
  timeout : ℤ
  rch : Option ℕ
  deriving DecidableEq, Repr

/-- A connection: the client, its broker and the responses under way. -/
structure Broker where
  /-- The messages sent to the broker; those from `taken` on are in its channel. -/
  sent : List BrokerMsg
  taken : ℕ
  waits : UInt32 → Option ℕ
  /-- What `From world` is about to send, after it has unlocked `waits`. -/
  held : Option (ℕ × Result)
  chans : ℕ → Option Result
  pool : List ℕ
  /-- The channels from here on have not been made. -/
  fresh : ℕ
  closed : Bool
  /-- The requests whose result the client has received. -/
  waited : ℕ → Bool
  /-- The responses made so far, each with the number of its message. -/
  replies : List (ℕ × Message)
  /-- The request that took a channel last. -/
  owner : ℕ → ℕ
  /-- The results sent on the channel of a request. -/
  results : ℕ → List Result

namespace Broker

def new : Broker :=
  ⟨[], 0, fun _ => none, none, fun _ => none, [], 0, false, fun _ => false, [], fun _ => 0,
    fun _ => []⟩

inductive Event
  /-- `send`; `ch` is the channel the pool gives, if there is a timeout. -/
  | send (mess : Message) (timeout : ℤ) (ch : ℕ)
  /-- `To world` takes a message. -/
  | take
  /-- The server processes the message of number `i`, in the state it is in by then. -/
  | serve (i : ℕ) (server : DBServer)
  /-- `From world` reads one of the responses. -/
  | receive (k : ℕ)
  /-- `From world` sends the result it holds. -/
  | put
  /-- The time of an ID is over, or the connection is closed. -/
  | expire (tid : UInt32) (closing : Bool)
  /-- The client receives the result of the request `i`; `Wait` puts the channel back. -/
  | wait (i : ℕ) (back : Bool)
  | close

variable (marshal : ℕ → ℤ → ServerMap → Bytes) (s : Broker)

/-- The channel of the message of number `i`. -/
def rch (i : ℕ) : Option ℕ := s.sent[i]?.bind BrokerMsg.rch

/-- The message of number `i` as it goes to the server. -/
def onWire (i : ℕ) : Option Message :=
  s.sent[i]?.map fun msg => { msg.mess with id := UInt32.ofNat i }

/-- A request with a channel; what the pool and the channels to make are then. -/
def request (mess : Message) (timeout : ℤ) (ch : ℕ) (pool : List ℕ) (fresh : ℕ) : Broker :=
  { s with
    sent := s.sent ++ [⟨mess, timeout, some ch⟩]
    owner := Function.update s.owner ch s.sent.length
    pool, fresh }

/-- Sends a result on a channel; it blocks if the channel is full. -/
def deliver (ch : ℕ) (r : Result) : Option Broker :=
  match s.chans ch with
  | some _ => none
  | none => some { s with
    chans := Function.update s.chans ch (some r)
    results := Function.update s.results (s.owner ch) (s.results (s.owner ch) ++ [r]) }

/-- `To world` with the message it has taken; a panic is no step. -/
def register (msg : BrokerMsg) : Option Broker :=
  if msg.timeout > 0 then
    msg.rch.map fun ch => { s with
      taken := s.taken + 1
      waits := Function.update s.waits (UInt32.ofNat s.taken) (some ch) }
  else if msg.rch = none then some { s with taken := s.taken + 1 }
  else none

/-- `From world` with a response it has read. -/
def respond (m : Message) : Broker :=
  match s.waits m.id with
  | none => s
  | some ch => { s with
    waits := Function.update s.waits m.id none
    held := some (ch, .ofMessage m) }

/-- The connection after an event; `none` if it cannot happen. -/
def next : Event → Option Broker
  | .send mess timeout ch =>
    if s.closed then none
    else if timeout = 0 then some { s with sent := s.sent ++ [⟨mess, 0, none⟩] }
    else if ch ∈ s.pool then some (s.request mess timeout ch (s.pool.erase ch) s.fresh)
    else if ch = s.fresh then some (s.request mess timeout ch s.pool (s.fresh + 1))
    else none
  | .take => s.sent[s.taken]?.bind s.register
  | .serve i server =>
    if i < s.taken then do
      let message ← s.onWire i
      let (response, _) ← (server.processMessage marshal message).toOption
      return if response.type > 0 then { s with replies := s.replies ++ [(i, response)] } else s
    else none
  | .receive k => if s.held = none then s.replies[k]?.map fun p => s.respond p.2 else none
  | .put => do
    let (ch, r) ← s.held
    { s with held := none }.deliver ch r
  | .expire tid closing =>
    if closing → s.closed ∧ s.taken = s.sent.length then do
      let ch ← s.waits tid
      { s with waits := Function.update s.waits tid none }.deliver ch
        ⟨[], some (if closing then .closed else .timeout)⟩
    else none
  | .wait i back =>
    if s.waited i then none
    else do
      let ch ← s.rch i
      let _ ← s.chans ch
      return { s with
        chans := Function.update s.chans ch none
        waited := Function.update s.waited i true
        pool := if back then ch :: s.pool else s.pool }
  | .close => if s.closed then none else some { s with closed := true }

end Broker

end Treeless
