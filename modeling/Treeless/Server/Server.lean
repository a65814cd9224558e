import Treeless.Com.Reader
import Treeless.Core.Core
import Treeless.Dist.ServerGroup

/-!
# Server/Server — a node, its connections and its transfers

A node serves the messages of its connections, each connection in a goroutine of its own:

    Conn.Read ──► processMessage ──► response, dropped if its type is 0

`OpTransfer` starts one more goroutine, which sends the pairs of a chunk to another node.  It goes
through the log of the chunk, and unlocks the chunk while it sends a pair:

    dialing ──► at 0 ──► past 0 ──► at i ──► past i ──► … ──► ended

The rest of the node is its environment: the chunk may get another `PMap` (`ChunkSetPresent`,
`ChunkSetNoPresent`, the defragmenter), which closes the one it had, and the group changes with
every heartbeat.
-/

namespace Treeless

/-- The bytes of a Go string, written with one character for each byte. -/
def textBytes (text : String) : Bytes := text.toList.map fun c => UInt8.ofNat c.toNat

/-- `string(bs)`. -/
def bytesText (bs : Bytes) : String := String.ofList (bs.map fun b => Char.ofNat b.toNat)

/-- A goroutine that `OpTransfer` started. -/
inductive Transfer
  | dialing (cid : ℕ)
  /-- The chunk is locked, and the record at `index` comes next. -/
  | «at» (cid index : ℕ)
  /-- The pair at `index` is sent, and the chunk is not locked; `mapped` while the `PMap` it is of
  is not closed. -/
  | past (cid index : ℕ) (mapped : Bool)
  | ended
  deriving DecidableEq, Repr

/-- The transfer after the `PMap` of a chunk has been closed. -/
def Transfer.unmap (cid : ℕ) : Transfer → Transfer
  | past cid' index mapped => past cid' index (mapped && decide (cid' ≠ cid))
  | t => t

/-- A node. -/
structure DBServer where
  core : Core
  sg : ServerGroup
  redundancy : ℤ
  stopped : Bool
  conns : List (Reader × Tcp)
  transfers : List Transfer

namespace DBServer

/-- `Create`, of a new database: every chunk is present, and this server holds it. -/
def create (addr dbpath : String) (chunkSize numChunks : ℕ) (redundancy : ℤ) : Call DBServer := do
  let w ← (List.range numChunks).foldlM World.chunkSetPresent ⟨.new dbpath chunkSize numChunks, []⟩
  let (_, sg) ← (ServerGroup.create numChunks).addServerToGroup addr
  let sg ← sg.setServerChunks addr ((List.range numChunks).map fun cid => ⟨cid, 0⟩)
  return ⟨w.core, sg, redundancy, false, [], []⟩

-- `json.Marshal` of the configuration: number of chunks, redundancy, servers
variable (marshal : ℕ → ℤ → ServerMap → Bytes) (s : DBServer)

/-! ## Messages -/

/-- `binary.LittleEndian.Uint32` of a key. -/
def chunkID (key : Bytes) : Call ℕ := leNat <$> slice key 0 4

/-- What `core.CAS` asks the group, if the chunk is present; the other operations do not ask. -/
def synched (op : Op) (present : Bool) : Call Bool :=
  if present && op.isCas then s.sg.isSynched (s.core.chunkIndex op.key) else .ok true

/-- `core.Set`, `core.CAS` and `core.Delete`. -/
def request (op : Op) : Call (Option CoreError × DBServer) := do
  let chunk ← s.core.chunk (s.core.chunkIndex op.key)
  let synched ← s.synched op chunk.present
  let (e, core) ← s.core.request (fun _ => synched) op
  return (e, { s with core })

/-- The type and the value of the response to an operation that may fail. -/
def outcome : Option CoreError → Operation × Bytes
  | none => (Operation.ok, [])
  | some e => (Operation.err, textBytes e.text)

/-- `OpProtect`: the chunk is protected if there are more holders of it than needed. -/
def protect (key : Bytes) : Call ((Operation × Bytes) × DBServer) := do
  let cid ← chunkID key
  if ((← s.sg.numHolders cid : ℕ) : ℤ) > s.redundancy then
    let (e, core) ← s.core.chunkSetProtected cid
    return (outcome e, { s with core })
  else return ((Operation.err, []), s)

/-- The type and the value of the response, by the type of the message. -/
def respond (m : Message) : Call ((Operation × Bytes) × DBServer) :=
  if m.type = Operation.get then do
    let value ← s.core.get m.key
    return ((Operation.response, value.toOption.join.getD []), s)
  else if m.type = Operation.set then do
    let (e, s) ← s.request (.set m.key m.value)
    return (outcome e, s)
  else if m.type = Operation.asyncSet then do
    let (_, s) ← s.request (.set m.key m.value)
    return ((0, []), s)
  else if m.type = Operation.cas then do
    let (e, s) ← s.request (.cas m.key m.value)
    return (outcome e, s)
  else if m.type = Operation.del then do
    let (e, s) ← s.request (.del m.key m.value)
    return (outcome e, s)
  else if m.type = Operation.transfer then do
    let cid ← chunkID m.key
    return ((Operation.ok, []), { s with transfers := s.transfers ++ [.dialing cid] })
  else if m.type = Operation.getConf then
    .ok ((Operation.response, marshal s.sg.chunks.length s.redundancy s.sg.toServerMap), s)
  else if m.type = Operation.addServerToGroup then do
    -- its error is not looked at
    let (_, sg) ← s.sg.addServerToGroup (bytesText m.key)
    return ((Operation.ok, []), { s with sg })
  else if m.type = Operation.getChunkInfo then do
    let cid ← chunkID m.key
    let length ← s.core.lengthOfChunk cid
    return ((Operation.response, leBytes 8 length.toNat), s)
  else if m.type = Operation.protect then s.protect m.key
  else if m.type = Operation.setBuffered then .ok ((Operation.setBuffered, []), s)
  else if m.type = Operation.setNoDelay then .ok ((Operation.setNoDelay, []), s)
  else .ok ((Operation.err, textBytes "Operation not supported"), s)

/-- The response to a message; one of type `0` is not sent. -/
def processMessage (message : Message) : Call (Message × DBServer) :=
  if s.stopped then .ok (⟨0, 0, [], []⟩, s)
  else do
    let ((type, value), s) ← s.respond marshal message
    return (⟨type, message.id, [], value⟩, s)

/-- One turn of the loop of a connection: the response to write, if there is one. -/
def listenRequests (i : ℕ) : Call (Option Message × DBServer) :=
  match s.conns[i]? with
  | none => .ok (none, s)
  | some (c, t) => do
    match ← c.read t with
    | none => return (none, { s with conns := s.conns.eraseIdx i })
    | some (message, c, t) =>
      let (response, s) ← s.processMessage marshal message
      return (if response.type > 0 then some response else none,
        { s with conns := s.conns.set i (c, t) })

/-! ## Transfers -/

def setTransfer (j : ℕ) (t : Transfer) : DBServer := { s with transfers := s.transfers.set j t }

/-- The end of `CreateConnection`.  If the dial fails the connection is `nil`, and the deferred
`Close` dereferences it. -/
def dial (j : ℕ) (ok : Bool) : Call DBServer :=
  match s.transfers[j]? with
  | some (.dialing cid) =>
    if ok then do
      let chunk ← s.core.chunk cid
      return s.setTransfer j (if chunk.present then .at cid 0 else .ended)
    else .error .panic
  | _ => .ok s

/-- The transfer at the record at `index` of its `PMap`: the pair is sent if it is present. -/
def turnAt (j cid index : ℕ) (pm : PMap) : Call DBServer := do
  if index < pm.st.length then
    match ← pm.pairAt index with
    | some _ => return s.setTransfer j (.past cid index true)
    | none => return s.setTransfer j (.at cid (← pm.nextIndex index))
  else return s.setTransfer j .ended

/-- One turn of `Iterate`.  The file of a `PMap` that has been closed is `nil`. -/
def turn (j : ℕ) : Call DBServer :=
  match s.transfers[j]? with
  | some (.at cid index) => do
    let chunk ← s.core.chunk cid
    let pm ← Core.deref chunk.pm
    s.turnAt j cid index pm
  | some (.past cid index mapped) =>
    if mapped then do
      let chunk ← s.core.chunk cid
      let pm ← Core.deref chunk.pm
      return s.setTransfer j (.at cid (← pm.nextIndex index))
    else .error .bounds
  | _ => .ok s

/-- What happens at a node. -/
inductive Event
  | connect (t : Tcp)
  | listen (i : ℕ)
  | dial (j : ℕ) (ok : Bool)
  | turn (j : ℕ)
  /-- The chunk gets other flags and another `PMap`; the one it had is closed. -/
  | replace (cid : ℕ) (chunk : MetaChunk)
  | regroup (sg : ServerGroup)
  | stop

/-- The node after an event. -/
def step : Event → Call DBServer
  | .connect t => .ok { s with conns := s.conns ++ [(.new, t)] }
  | .listen i => Prod.snd <$> s.listenRequests marshal i
  | .dial j ok => s.dial j ok
  | .turn j => s.turn j
  | .replace cid chunk => .ok
    { s with core := s.core.setChunk cid chunk, transfers := s.transfers.map (Transfer.unmap cid) }
  | .regroup sg => .ok { s with sg }
  | .stop => .ok { s with stopped := true }

variable {marshal s}

/-- **A response has the ID of its message.** -/
theorem id_of_processMessage {message response : Message} {s' : DBServer}
    (h : s.processMessage marshal message = .ok (response, s')) (htype : response.type ≠ 0) :
    response.id = message.id := by
  rw [processMessage] at h
  split at h
  · cases h
    exact absurd rfl htype
  · obtain ⟨⟨⟨type, value⟩, s₁⟩, -, h⟩ := Call.bind_eq_ok.mp h
    cases h
    rfl

end DBServer

end Treeless
