import Sails.Base.ThreadQueue
import Sails.Net.NetThreads

/-!
# From the net threads to the handle threads

`ParseImp` makes a record for each packet that `Parse` returns and hands it over to a queue: the
server's own in run mode 1, that of handle thread `fd % handleThreads.size()` in the others.
`handleImp` takes records out, passes them to the server and releases them.

- `ParsePc`, `HandlePc`: where a net thread stands in `ParseImp`, and a handle thread in
  `handleImp` or its destructor
- `dispose`: what every clean-up does with a packet and its record
- `dispatchStep`: one step of a net thread, of a handle thread or of `StopHandleThread`

The log records what happens to packets and records; nothing reads it.
-/

namespace Sails.Net

open TransitionRun (Fault)
open CMemory
open Sails.Base

/-! ## Packets and records -/

/-- The address of a packet that `Parse` has returned; each is a new one. -/
abbrev PacketPtr := Nat

/-- The address of a `TagRecvData`; each is a new one. -/
abbrev RecordPtr := Nat

/-- Where the memory of a record is from and goes to: `memory_pool.allocate` and
`memory_pool.deallocate`, or `new` and `delete`. -/
inductive Allocator where
  | memoryPool
  | heap
  deriving DecidableEq, Repr

/-- `TagRecvData`. -/
structure RecvData where
  uid : UInt32
  data : Option PacketPtr
  ip : Bytes
  port : UInt16
  fd : Int
  extdata : ExtData

/-- What `ParseImp` reads of a connector; `accept_socket` makes connectors for positive
descriptors only. -/
structure Source where
  id : UInt32
  ip : Bytes
  port : UInt16
  connectFd : Int
  connectFd_pos : 0 < connectFd

/-- A record in memory, and the connector it was made for, which only the log is told. -/
structure Record where
  value : RecvData
  released : Bool
  conn : ConnectorPtr

/-- What happens to packets and records. -/
inductive DispatchEvent where
  /-- `Parse` has returned a packet, and a record is made for it -/
  | parsed (conn : ConnectorPtr) (packet : PacketPtr) (record : RecordPtr)
  /-- the record is in `recvlist`, or in the list of a handle thread -/
  | inserted (thread : Option Nat) (conn : ConnectorPtr) (record : RecordPtr)
  /-- `InsertRecvData` has met a full queue -/
  | refused (record : RecordPtr)
  /-- a handle thread passes the record to `handle` -/
  | handled (thread : Nat) (conn : ConnectorPtr) (record : RecordPtr)
  /-- `Tdeleter` is called on the packet -/
  | deleted (packet : PacketPtr)
  | released (record : RecordPtr) (allocator : Allocator)
  deriving DecidableEq

/-! ## Threads -/

/-- Where a net thread stands in `ParseImp`. -/
inductive ParsePc where
  | idle
  /-- at the head of the loop -/
  | parsing (conn : ConnectorPtr)
  /-- in `InsertRecvData`, before the test of `push_back` -/
  | testing (conn : ConnectorPtr) (record : RecordPtr)
  /-- past the test -/
  | inserting (conn : ConnectorPtr) (record : RecordPtr)
  /-- `InsertRecvData` has returned false -/
  | failed (conn : ConnectorPtr) (record : RecordPtr)
  deriving DecidableEq, Repr

/-- Where a handle thread stands in `handleImp`, and then the thread that deletes it in its
destructor. -/
inductive HandlePc where
  /-- at the head of the loop -/
  | looping
  /-- before `handle` -/
  | handling (record : RecordPtr)
  /-- behind it -/
  | cleaning (record : RecordPtr)
  /-- out of the loop, so `join` returns -/
  | exited
  /-- in the loop of the destructor -/
  | draining
  | deleted
  /-- its place in `handleThreads` is `NULL` -/
  | null
  deriving DecidableEq, Repr

/-- `HandleThread`. -/
structure HandleThread where
  handlelist : ThreadQueue RecordPtr
  continueHanle : Bool
  pc : HandlePc

/-- The server around the queues. -/
structure DispatchServer where
  /-- `netThreads.size()` -/
  netThreadNum : Nat
  /-- `handleThreads.size()` -/
  handleNum : Nat
  runMode : Int
  useMemoryPool : Bool
  connector : ConnectorPtr → Source

/-- The queues, the threads at them and the records. -/
structure Dispatch where
  records : RecordPtr → Record
  nextRecord : RecordPtr
  nextPacket : PacketPtr
  recvlist : ThreadQueue RecordPtr
  handleThreads : Nat → HandleThread
  netThreads : Nat → ParsePc
  log : List DispatchEvent

namespace Dispatch

/-- As the server starts; the two capacities are those of `recvlist` and of the handle threads'
lists. -/
def init (recvMaxSize : Nat) (handleMaxSize : Nat → Nat) (records : RecordPtr → Record) :
    Dispatch where
  records := records
  nextRecord := 0
  nextPacket := 0
  recvlist := ThreadQueue.init recvMaxSize
  handleThreads := fun i => ⟨ThreadQueue.init (handleMaxSize i), true, .looping⟩
  netThreads := fun _ => .idle
  log := []

variable (server : DispatchServer) (w : Dispatch)

/-- Record events. -/
def emit (events : List DispatchEvent) : Dispatch := { w with log := w.log ++ events }

/-- Net thread `k` is now at `pc`. -/
def setNet (k : Nat) (pc : ParsePc) : Dispatch :=
  { w with netThreads := fun j => if j = k then pc else w.netThreads j }

/-- Handle thread `i` is now in state `t`. -/
def setHandle (i : Nat) (t : HandleThread) : Dispatch :=
  { w with handleThreads := fun j => if j = i then t else w.handleThreads j }

/-- Store a record. -/
def setRecord (r : RecordPtr) (record : Record) : Dispatch :=
  { w with records := fun q => if q = r then record else w.records q }

/-! ## Memory -/

/-- The allocator that `ParseImp` takes a record from. -/
def recordAllocator : Allocator := if server.useMemoryPool then .memoryPool else .heap

/-- Read a record, which has to be there still. -/
def read (r : RecordPtr) : Except Fault RecvData :=
  if (w.records r).released then .error .dangling else .ok (w.records r).value

/-- `Tdeleter` on the packet of a record, if it has one, and the release of the record. -/
def dispose (r : RecordPtr) (allocator : Allocator) : Except Fault Dispatch :=
  match w.read r with
  | .error e => .error e
  | .ok value =>
    .ok ((w.setRecord r ⟨{ value with data := none }, true, (w.records r).conn⟩).emit
      ((value.data.toList.map .deleted) ++ [.released r allocator]))

/-! ## `ParseImp` -/

/-- `Parse` returns a packet, or `NULL`. -/
def parse (k : Nat) (conn : ConnectorPtr) (found : Bool) (extdata : ExtData) : Dispatch :=
  if found then
    let c := server.connector conn
    let r := w.nextRecord
    let p := w.nextPacket
    (({ w with nextRecord := r + 1, nextPacket := p + 1 }.setRecord r
      ⟨⟨c.id, some p, c.ip, c.port, c.connectFd, extdata⟩, false, conn⟩).setNet k
        (.testing conn r)).emit [.parsed conn p r]
  else w.setNet k .idle

/-- `selectedHandle`, as an index into `handleThreads`. -/
def selectedHandle (fd : Int) : Except Fault Nat :=
  if server.handleNum = 0 then .error .divisionByZero
  else .ok (fd.tmod server.handleNum).toNat

/-- The handle thread that a member function is called on. -/
def handleThread (i : Nat) : Except Fault HandleThread :=
  match (w.handleThreads i).pc with
  | .null => .error .nullPointer
  | .deleted => .error .dangling
  | _ => .ok (w.handleThreads i)

/-- The handle thread for a record. -/
def handleThreadOf (r : RecordPtr) : Except Fault (Nat × HandleThread) := do
  let value ← w.read r
  let i ← selectedHandle server value.fd
  let t ← w.handleThread i
  .ok (i, t)

/-- The test of `push_back` in `InsertRecvData` or `addForHandle`, and what `addForHandle` does
when it fails. -/
def testQueue (k : Nat) (conn : ConnectorPtr) (r : RecordPtr) : Except Fault Dispatch :=
  if server.runMode = 1 then
    if w.recvlist.isFull then .ok ((w.setNet k (.failed conn r)).emit [.refused r])
    else .ok (w.setNet k (.inserting conn r))
  else
    match handleThreadOf server w r with
    | .error e => .error e
    | .ok (_, t) =>
      if t.handlelist.isFull then
        ((w.setNet k (.failed conn r)).emit [.refused r]).dispose r (recordAllocator server)
      else .ok (w.setNet k (.inserting conn r))

/-- The insertion of `push_back`. -/
def insertRecord (k : Nat) (conn : ConnectorPtr) (r : RecordPtr) : Except Fault Dispatch :=
  if server.runMode = 1 then
    .ok (({ w with recvlist := w.recvlist.pushLocked r }.setNet k (.parsing conn)).emit
      [.inserted none conn r])
  else
    match handleThreadOf server w r with
    | .error e => .error e
    | .ok (i, t) =>
      .ok (((w.setHandle i { t with handlelist := t.handlelist.pushLocked r }).setNet k
        (.parsing conn)).emit [.inserted (some i) conn r])

/-- The next step of a net thread inside the loop of `ParseImp`, behind `Parse`. -/
def netStep (k : Nat) : Except Fault Dispatch :=
  match w.netThreads k with
  | .testing conn r => testQueue server w k conn r
  | .inserting conn r => insertRecord server w k conn r
  | .failed conn r =>
    -- it is deleted here, whatever made it and whoever has released it
    (w.setNet k (.parsing conn)).dispose r .heap
  | _ => .ok w

/-! ## `handleImp` and `StopHandleThread` -/

/-- The head of the loop of `handleImp`. -/
def takeRecord (i : Nat) : Except Fault Dispatch :=
  let t := w.handleThreads i
  if t.continueHanle then
    if server.runMode = 1 then
      match w.recvlist.popFront with
      | .error e => .error e
      | .ok none => .ok w
      | .ok (some (r, rest)) =>
        .ok ({ w with recvlist := rest }.setHandle i { t with pc := .handling r })
    else
      match t.handlelist.popFront with
      | .error e => .error e
      | .ok none => .ok w
      | .ok (some (r, rest)) => .ok (w.setHandle i { t with handlelist := rest, pc := .handling r })
  else .ok (w.setHandle i { t with pc := .exited })

/-- The next step of handle thread `i`. -/
def handleStep (i : Nat) : Except Fault Dispatch :=
  let t := w.handleThreads i
  match t.pc with
  | .looping => takeRecord server w i
  | .handling r =>
    match w.read r with
    | .error e => .error e
    | .ok _ =>
      .ok ((w.setHandle i { t with pc := .cleaning r }).emit [.handled i (w.records r).conn r])
  | .cleaning r => (w.setHandle i { t with pc := .looping }).dispose r (recordAllocator server)
  | _ => .ok w

/-- The next step of `StopHandleThread` with handle thread `i`: `terminate`, `join`, `delete`
and the null pointer. -/
def stopStep (i : Nat) : Except Fault Dispatch :=
  let t := w.handleThreads i
  if t.continueHanle then .ok (w.setHandle i { t with continueHanle := false })
  else
    match t.pc with
    | .exited => .ok (w.setHandle i { t with pc := .draining })
    | .draining =>
      match t.handlelist.popFront with
      | .error e => .error e
      | .ok none => .ok (w.setHandle i { t with pc := .deleted })
      | .ok (some (r, rest)) => (w.setHandle i { t with handlelist := rest }).dispose r .heap
    | .deleted => .ok (w.setHandle i { t with pc := .null })
    | _ => .ok w

/-! ## Steps -/

end Dispatch

/-- Which thread moves, and what `Parse` returns. -/
inductive DispatchAction where
  /-- the net thread of a connection calls `ParseImp` for it -/
  | parseImp (conn : ConnectorPtr)
  /-- `Parse` returns in net thread `k` -/
  | parse (k : Nat) (found : Bool) (extdata : ExtData)
  /-- net thread `k` goes on inside `ParseImp` -/
  | net (k : Nat)
  | handle (i : Nat)
  | stop (i : Nat)

namespace Dispatch

/-- One step; an action that is not enabled does nothing. -/
def dispatchStep (server : DispatchServer) (w : Dispatch) :
    DispatchAction → Except Fault Dispatch
  | .parseImp conn =>
    let k := netThreadOfFd server.netThreadNum (server.connector conn).connectFd
    match w.netThreads k with
    | .idle => .ok (w.setNet k (.parsing conn))
    | _ => .ok w
  | .parse k found extdata =>
    match w.netThreads k with
    | .parsing conn => .ok (parse server w k conn found extdata)
    | _ => .ok w
  | .net k => netStep server w k
  | .handle i => if i < server.handleNum then handleStep server w i else .ok w
  | .stop i => if i < server.handleNum then stopStep w i else .ok w

end Dispatch

end Sails.Net
