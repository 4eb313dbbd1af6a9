import Sails.Base.ThreadQueue
import Sails.Net.ConnectorList

/-!
# `net::NetThread`

One net thread, the threads that put commands into its send list, and the thread that
accepts connections for it, as one transition system. A step is what one thread does between
two points where another thread may come in:

- a producer: the unlocked test, the locked insertion and the notification of `push_back`'s
  callers `send`, `close_connector` and `SetConnectorData`
- the net thread: a round of the loop of `read_pipe_cb` in two steps (take a command off the
  list; look its connection up and carry it out), each call in the closing of a connection,
  a run of `read_data`, an entry of `checkTimeout`, and its own calls of `close_connector`
- the acceptor: `accept_socket` up to the new id, `list.add`, and `event_ctl`

The mutex of the connector list is held during `checkTimeout`, so the acceptor's steps on the
list wait for its end. The log records what happens to connections; nothing reads it.
-/

namespace Sails.Net

open TransitionRun (Fault run)
open CMemory
open Sails.Base

/-! ## Commands -/

/-- The `cmd` of a `TagSendData`: `'s'`, `'c'` or `'m'`. -/
inductive SendCmd where
  | send
  | close
  | modify
  deriving DecidableEq, Repr

/-- `TagSendData`. -/
structure SendData where
  cmd : SendCmd
  uid : UInt32
  buffer : Bytes
  ip : Bytes
  port : UInt16
  deriving DecidableEq

/-- `EpollServer::CloseConnectorReason`. -/
inductive CloseConnectorReason where
  | timeout
  | clientClosed
  | serverClosed
  deriving DecidableEq, Repr

def CloseConnectorReason.code : CloseConnectorReason → UInt8
  | .timeout => 0
  | .clientClosed => 1
  | .serverClosed => 2

/-- `snprintf(reasonstr, sizeof(reasonstr), "%d", reason)`. -/
def CloseConnectorReason.text (reason : CloseConnectorReason) : Bytes := [48 + reason.code]

/-- `sscanf(buffer, "%10d", &reason)` with `reason` 0 before, on a text without a sign. -/
def scanReason (buffer : Bytes) : Nat :=
  ((buffer.takeWhile fun b => decide (48 ≤ b ∧ b ≤ 57)).take 10).foldl
    (fun n b => 10 * n + (b - 48).toNat) 0

theorem scanReason_text (reason : CloseConnectorReason) :
    scanReason reason.text = reason.code.toNat := by
  cases reason <;> rfl

/-- A call that puts a command into the send list. -/
inductive Call where
  | send (ip : Bytes) (port : UInt16) (uid : UInt32) (s : Bytes)
  | closeConnector (ip : Bytes) (port : UInt16) (uid : UInt32) (fd : Int)
      (reason : CloseConnectorReason)
  | setConnectorData (ip : Bytes) (port : UInt16) (uid : UInt32) (fd : Int) (data : ExtData)

/-- The argument check of `close_connector` and `SetConnectorData`. -/
def goodArguments (ip : Bytes) (port : UInt16) (uid : UInt32) (fd : Int) : Bool :=
  !(ip.length == 0 || port == 0 || uid == 0 || decide (fd ≤ 0))

/-- The command a call puts into the list, unless its arguments are refused. -/
def Call.command : Call → Option SendData
  | .send ip port uid s => some ⟨.send, uid, s, ip, port⟩
  | .closeConnector ip port uid fd reason =>
    if goodArguments ip port uid fd then some ⟨.close, uid, reason.text, ip, port⟩ else none
  | .setConnectorData ip port uid fd data =>
    if goodArguments ip port uid fd then some ⟨.modify, uid, data.bytes, ip, port⟩ else none

/-- Where a thread stands in a call: before the test of `push_back`, asleep after a failed
test (only `close_connector` tries again), past the test, or before the notification. -/
inductive PushPhase where
  | testing
  | retrying
  | inserting
  | notifying
  deriving DecidableEq, Repr

/-- A call under way. -/
structure Pushing where
  data : SendData
  phase : PushPhase
  deriving DecidableEq

/-! ## States -/

/-- What happens to connections. -/
inductive NetEvent where
  /-- the connector is in the list, under its id and its peer's address -/
  | added (conn : ConnectorPtr) (uid : UInt32) (ip : Bytes) (port : UInt16)
  /-- the send list has taken the command in -/
  | accepted (serial : Nat) (data : SendData)
  /-- `read_pipe_cb` carries the command out -/
  | took (serial : Nat) (data : SendData)
  /-- `write` and `send` on the connector; the bytes `::write` took, if it was called -/
  | output (conn : ConnectorPtr) (taken : Option Bytes)
  /-- `read` on the connector -/
  | read (conn : ConnectorPtr)
  /-- `ParseImp` on the connector -/
  | parsed (conn : ConnectorPtr)
  /-- `ClosedConnectCB`, for the command with this number, and what the slot of the
  connector's id holds at that moment -/
  | closedCB (conn : ConnectorPtr) (serial : Nat) (reason : Nat) (holder : Option ConnectorPtr)
  /-- `event_stop` on the connector's descriptor -/
  | eventStop (conn : ConnectorPtr) (fd : Int)
  /-- `::close` on the connector's descriptor -/
  | closeFd (conn : ConnectorPtr) (fd : Int)
  /-- `list.del` has freed the connector's slot -/
  | removed (conn : ConnectorPtr)
  deriving DecidableEq

/-- The calls that follow `ClosedConnectCB`; the last is the end of the scope that holds the
last pointer. -/
inductive CloseStage where
  | eventStop
  | close
  | del
  | release
  deriving DecidableEq, Repr

/-- Where the net thread stands. -/
inductive NetPc where
  /-- in `epoll_wait`, or between two callbacks -/
  | waiting
  /-- at the head of the loop of `read_pipe_cb` -/
  | draining
  /-- a command has been taken off the list -/
  | handling (serial : Nat) (data : SendData)
  /-- behind `ClosedConnectCB` for the connector, with the `uid` of the command -/
  | closing (stage : CloseStage) (conn : ConnectorPtr) (uid : UInt32)
  /-- in the loop of `checkTimeout`, with these entries to go -/
  | ticking (rest : List (MultimapEntry Int Nat))
  /-- in its own call of `close_connector`, from `read_data` or (with entries to go) from a
  timeout callback -/
  | requesting (push : Pushing) (rest : Option (List (MultimapEntry Int Nat)))

/-- Where the acceptor stands with the connection it is adding. -/
inductive Acceptor where
  | idle
  /-- the connector has its id -/
  | numbered (conn : ConnectorPtr)
  /-- the connector is in the list -/
  | added (conn : ConnectorPtr)
  deriving DecidableEq

/-- The server around a net thread. -/
structure Server where
  /-- `netThreads.size()` -/
  netThreadNum : Nat
  /-- the number of the net thread modelled -/
  index : Nat
  /-- what `ParseImp` leaves of the input buffer and the data of a connector -/
  parseImp : Connector → Buffer × ExtData

/-- A net thread with the threads around it. -/
structure NetThread where
  connectorList : ConnectorList
  connectors : Connectors
  /-- the address of the next connector made -/
  nextConnector : ConnectorPtr
  sendlist : ThreadQueue (Nat × SendData)
  /-- the number of commands the list has taken in so far -/
  acceptedNum : Nat
  /-- the write event of `notify` is pending -/
  notifyPending : Bool
  pc : NetPc
  producers : Nat → Option Pushing
  acceptor : Acceptor
  log : List NetEvent

/-- The number of slots the constructor asks for. -/
def connectorTotal : Nat := 1000000

/-- The constructor and `create_event_loop`: registering `notify` for writing raises its event
at once. -/
def NetThread.init (server : Server) (maxSize : Nat) (now : Int) (connectors : Connectors) :
    NetThread where
  connectorList := ConnectorList.init connectorTotal (UInt32.ofNat server.index) now
  connectors := connectors
  nextConnector := 0
  sendlist := ThreadQueue.init maxSize
  acceptedNum := 0
  notifyPending := true
  pc := .waiting
  producers := fun _ => none
  acceptor := .idle
  log := []

namespace NetThread

/-- Record events. -/
def emit (s : NetThread) (events : List NetEvent) : NetThread := { s with log := s.log ++ events }

/-- Store a connector back. -/
def setConnector (s : NetThread) (conn : ConnectorPtr) (c : Connector) : NetThread :=
  { s with connectors := s.connectors.set conn c }

/-- The net thread holds the mutex of the connector list. -/
def listLocked (s : NetThread) : Bool :=
  match s.pc with
  | .ticking _ => true
  | .requesting _ (some _) => true
  | _ => false

/-! ## Putting a command into the send list -/

/-- One step of `send`, `close_connector` or `SetConnectorData`. -/
def pushStep (s : NetThread) (p : Pushing) : NetThread × Option Pushing :=
  match p.phase with
  | .testing =>
    if s.sendlist.isFull then
      -- `send` and `SetConnectorData` drop the command, `close_connector` sleeps 10 ms
      (s, some { p with phase := if p.data.cmd = .close then .retrying else .notifying })
    else (s, some { p with phase := .inserting })
  | .retrying => (s, some { p with phase := .testing })
  | .inserting =>
    ({ s with
        sendlist := s.sendlist.pushLocked (s.acceptedNum, p.data)
        acceptedNum := s.acceptedNum + 1 }.emit [.accepted s.acceptedNum p.data],
      some { p with phase := .notifying })
  | .notifying => ({ s with notifyPending := true }, none)

/-- Where producer `k` stands. -/
def setProducer (s : NetThread) (k : Nat) (p : Option Pushing) : NetThread :=
  { s with producers := fun j => if j = k then p else s.producers j }

/-- A step of producer `k`. -/
def producerStep (s : NetThread) (k : Nat) : NetThread :=
  match s.producers k with
  | none => s
  | some p =>
    let (s, next) := s.pushStep p
    s.setProducer k next

/-- Producer `k` begins a call. -/
def beginCall (s : NetThread) (k : Nat) (call : Call) : NetThread :=
  match s.producers k, call.command with
  | none, some d => s.setProducer k (some ⟨d, .testing⟩)
  | _, _ => s

/-! ## The net thread's own close requests -/

/-- `GetNetThreadOfFd(fd)` is this net thread. -/
def ownsFd (server : Server) (fd : Int) : Bool :=
  decide (fd.emod (2 ^ 64) % server.netThreadNum = server.index)

/-- Where the net thread goes on after a close request. -/
def resume : Option (List (MultimapEntry Int Nat)) → NetPc
  | none => .waiting
  | some rest => .ticking rest

/-- `server->CloseConnector` for a connector, called by the net thread itself. -/
def requestClose (server : Server) (s : NetThread) (conn : ConnectorPtr)
    (reason : CloseConnectorReason) (rest : Option (List (MultimapEntry Int Nat))) : NetThread :=
  let c := s.connectors conn
  if ownsFd server c.connectFd then
    match (Call.closeConnector c.ip c.port c.id c.connectFd reason).command with
    | none => { s with pc := resume rest }
    | some d => { s with pc := .requesting ⟨d, .testing⟩ rest }
  else { s with pc := resume rest }  -- the command goes to another net thread

/-! ## `read_data` -/

/-- `ParseImp` on a connector. -/
def parse (server : Server) (c : Connector) : Connector :=
  { c with inBuf := (server.parseImp c).1, data := (server.parseImp c).2 }

/-- The `errno` a read leaves. -/
def errnoOf {len : Nat} : ReadAnswer len → Option Errno
  | .failed errno => some errno
  | .got .. => none

/-- The reading loop of `read_data`, for as long as there are answers: the connector, what
happened and whether reading failed. -/
def readLoop (server : Server) (conn : ConnectorPtr) (c : Connector) (totalNum : Int)
    (events : List NetEvent) :
    List (ReadAnswer Connector.readBytes) → Except Fault (Option (Connector × List NetEvent × Bool))
  | [] => .ok none
  | answer :: answers =>
    match c.read answer with
    | .error e => .error e
    | .ok (c, n) =>
      let events := events ++ [.read conn]
      if n = -1 ∧ errnoOf answer = some .eintr then
        readLoop server conn c totalNum events answers
      else if 0 < n then
        -- `totalNum` is an `int`: it wraps at 2^31
        let totalNum := (totalNum + n).bmod (2 ^ 32)
        -- more than 4k since the loop began: parse before reading on
        let full := decide (4096 ≤ totalNum)
        let c := if full then parse server c else c
        let events := if full then events ++ [.parsed conn] else events
        if n < Connector.readBytes then .ok (some (c, events, false))
        else readLoop server conn c totalNum events answers
      else if n = 0 then .ok (some (c, events, true))
      else .ok (some (c, events, decide (errnoOf answer ≠ some .eagain)))

/-- The end of `read_data`: a close request, or `refresh` and `ParseImp`. -/
def readEnd (server : Server) (s : NetThread) (conn : ConnectorPtr) (readerror : Bool) (now : Int) :
    Except Fault NetThread :=
  let c := s.connectors conn
  if readerror then
    .ok (if c.isClosed then s else requestClose server s conn .clientClosed none)
  else
    match s.connectorList.refresh s.connectors c.id (c.timeout + now) with
    | .error e => .error e
    | .ok (list, connectors) =>
      .ok (({ s with connectorList := list, connectors := connectors }.setConnector conn
        (parse server (connectors conn))).emit [.parsed conn])

/-- `read_data` for an event with this `uid`; `answers` are those of `::read`. -/
def readData (server : Server) (s : NetThread) (uid : UInt32)
    (answers : List (ReadAnswer Connector.readBytes)) (now : Int) : Except Fault NetThread :=
  match s.connectorList.get uid with
  | .error e => .error e
  | .ok none => .ok s
  | .ok (some conn) =>
    match readLoop server conn (s.connectors conn) 0 [] answers with
    | .error e => .error e
    | .ok none => .ok s  -- the loop is not over with these answers
    | .ok (some (c, events, readerror)) =>
      readEnd server ((s.setConnector conn c).emit events) conn readerror now

/-! ## `read_pipe_cb` -/

/-- The connection a command is for: `get(uid)`, and the peer's address has to be right. -/
def target (s : NetThread) (d : SendData) : Except Fault (Option ConnectorPtr) :=
  match s.connectorList.get d.uid with
  | .error e => .error e
  | .ok none => .ok none
  | .ok (some conn) =>
    if (s.connectors conn).port = d.port ∧ (s.connectors conn).ip = d.ip then .ok (some conn)
    else .ok none

/-- `connector->write(...)` and `connector->send()`. -/
def writeAndSend (s : NetThread) (conn : ConnectorPtr) (buffer : Bytes) (answer : WriteAnswer) :
    Except Fault NetThread :=
  match (s.connectors conn).write buffer (toInt32 buffer.length) with
  | .error e => .error e
  | .ok c =>
    .ok ((s.setConnector conn (c.send answer).1).emit [.output conn (c.send answer).2])

/-- Carry out a command on its connection. -/
def perform (s : NetThread) (serial : Nat) (d : SendData) (conn : ConnectorPtr)
    (answer : WriteAnswer) : Except Fault NetThread :=
  match d.cmd with
  | .send => writeAndSend { s with pc := .draining } conn d.buffer answer
  | .close =>
    let holder := s.connectorList.first (slotOf (s.connectors conn).id)
    .ok ({ s with pc := .closing .eventStop conn d.uid }.emit
      [.closedCB conn serial (scanReason d.buffer) holder])
  | .modify =>
    -- `memcpy(&cdata, temp, sizeof(cdata))`
    if h : 8 ≤ d.buffer.length then
      .ok ({ s with pc := .draining }.setConnector conn
        { s.connectors conn with data := ⟨d.buffer.take 8, by rw [List.length_take]; omega⟩ })
    else .error .outOfBounds

/-- Look the connection of a command up and carry the command out. -/
def handle (s : NetThread) (serial : Nat) (d : SendData) (answer : WriteAnswer) :
    Except Fault NetThread :=
  match s.target d with
  | .error e => .error e
  | .ok none => .ok ({ s with pc := .draining }.emit [.took serial d])
  | .ok (some conn) => (s.emit [.took serial d]).perform serial d conn answer

/-- The calls that follow `ClosedConnectCB`. -/
def closeStep (s : NetThread) (conn : ConnectorPtr) (uid : UInt32) :
    CloseStage → Except Fault NetThread
  | .eventStop =>
    .ok ({ s with pc := .closing .close conn uid }.emit
      [.eventStop conn (s.connectors conn).connectFd])
  | .close =>
    let (c, fd) := (s.connectors conn).close
    .ok (({ s with pc := .closing .del conn uid }.setConnector conn
      { c with data := .zero 8 }).emit (fd.toList.map (.closeFd conn)))
  | .del =>
    match s.connectorList.del uid with
    | .error e => .error e
    | .ok list =>
      .ok ({ s with connectorList := list, pc := .closing .release conn uid }.emit [.removed conn])
  | .release =>
    .ok ({ s with pc := .draining }.emit
      ((s.connectors conn).destructor.toList.map (.closeFd conn)))

/-- The head of the loop of `read_pipe_cb`. -/
def drain (s : NetThread) : Except Fault NetThread :=
  match s.sendlist.popFront with
  | .error e => .error e
  | .ok none => .ok { s with pc := .waiting }
  | .ok (some ((serial, d), rest)) => .ok { s with sendlist := rest, pc := .handling serial d }

/-! ## `checkTimeout` -/

/-- `tick_timer_cb`, which only the first net thread has. -/
def tick (server : Server) (s : NetThread) (now : Int) : NetThread :=
  if server.index = 0 ∧ ¬ now - s.connectorList.lastTimeoutTime < 1 then
    { s with
      connectorList := { s.connectorList with lastTimeoutTime := now }
      pc := .ticking (s.connectorList.tl.upTo now) }
  else s

/-- A round of the loop of `checkTimeout`; the timeout callback is `timeoutCb`. -/
def tickStep (server : Server) (s : NetThread) :
    List (MultimapEntry Int Nat) → Except Fault NetThread
  | [] => .ok { s with pc := .waiting }
  | e :: rest =>
    match s.connectorList.first e.value with
    | none => .error .nullPointer
    | some conn =>
      let c := s.connectors conn
      if c.listenFd = -1 then .ok { s with pc := .ticking rest }
      else
        let s := s.setConnector conn c.setIsTimeout
        .ok (if c.timeoutCB ∧ c.owner then requestClose server s conn .timeout (some rest)
          else { s with pc := .ticking rest })

/-- The next step of the net thread inside a callback; `answer` is the kernel's to `::write`,
if the step makes that call. -/
def netStep (server : Server) (s : NetThread) (answer : WriteAnswer) : Except Fault NetThread :=
  match s.pc with
  | .waiting => .ok s
  | .draining => s.drain
  | .handling serial d => s.handle serial d answer
  | .closing stage conn uid => s.closeStep conn uid stage
  | .ticking rest => tickStep server s rest
  | .requesting p rest =>
    match s.pushStep p with
    | (s, some p) => .ok { s with pc := .requesting p rest }
    | (s, none) => .ok { s with pc := resume rest }

/-! ## The acceptor -/

/-- `accept_socket` for a connection that belongs to this net thread: a new connector and its
id. The constructor leaves `lastRefreshTime` and `data` as they are in memory. -/
def accept (server : Server) (s : NetThread) (connfd : Int) (ip : Bytes) (port : UInt16)
    (listenFd timeout lastRefreshTime : Int) (data : ExtData) : Except Fault NetThread :=
  if s.acceptor = .idle ∧ 0 < connfd ∧ ownsFd server connfd ∧ s.listLocked = false then
    match s.connectorList.getUniqId with
    | .error e => .error e
    | .ok (uid, list) =>
      let c : Connector := { Connector.ofFd connfd lastRefreshTime timeout data with
        id := uid, ip := ip, port := port, listenFd := listenFd, timeoutCB := true }
      .ok ({ s with
        connectorList := list
        nextConnector := s.nextConnector + 1
        acceptor := .numbered s.nextConnector }.setConnector s.nextConnector c)
  else .ok s

/-- `add_connector` up to `connector_list.add`. -/
def addConnector (s : NetThread) (conn : ConnectorPtr) (now : Int) : Except Fault NetThread :=
  let c : Connector := { s.connectors conn with owner := true }
  let numbered : Except Fault (UInt32 × ConnectorList) :=
    if c.id = 0 then s.connectorList.getUniqId else .ok (c.id, s.connectorList)
  match numbered with
  | .error e => .error e
  | .ok (uid, list) =>
    let c := { c with id := uid }
    let s := s.setConnector conn c
    match list.add s.connectors conn (c.timeout + now) with
    | .error e => .error e
    | .ok list =>
      .ok ({ s with connectorList := list, acceptor := .added conn }.emit
        [.added conn c.id c.ip c.port])

/-- The net thread is closing the connector, so it has a pointer to it. -/
def holds (s : NetThread) (conn : ConnectorPtr) : Bool :=
  match s.pc with
  | .closing _ held _ => held == conn
  | _ => false

/-- The end of `add_connector`: `event_ctl` has succeeded, or the connector leaves the list
and, with the last pointer, is destroyed. -/
def registerConnector (s : NetThread) (conn : ConnectorPtr) (ok : Bool) : Except Fault NetThread :=
  if ok then .ok { s with acceptor := .idle }
  else
    match s.connectorList.del (s.connectors conn).id with
    | .error e => .error e
    | .ok list =>
      .ok ({ s with connectorList := list, acceptor := .idle }.emit
        (.removed conn :: if s.holds conn then [] else
          (s.connectors conn).destructor.toList.map (.closeFd conn)))

/-! ## Steps -/

/-- Which thread moves, and what the outside answers. -/
inductive Action where
  | call (k : Nat) (call : Call)
  | push (k : Nat)
  | accept (connfd : Int) (ip : Bytes) (port : UInt16) (listenFd timeout lastRefreshTime : Int)
      (data : ExtData)
  | addConnector (now : Int)
  | register (ok : Bool)
  /-- the event of `notify` is delivered -/
  | notified
  /-- a read event is delivered, perhaps a stale one -/
  | readEvent (uid : UInt32) (answers : List (ReadAnswer Connector.readBytes)) (now : Int)
  /-- the tick timer fires -/
  | tick (now : Int)
  /-- the net thread goes on inside a callback -/
  | net (answer : WriteAnswer)

/-- One step of the system; an action that is not enabled does nothing. -/
def step (server : Server) (s : NetThread) : Action → Except Fault NetThread
  | .call k call => .ok (s.beginCall k call)
  | .push k => .ok (s.producerStep k)
  | .accept connfd ip port listenFd timeout lastRefreshTime data =>
    accept server s connfd ip port listenFd timeout lastRefreshTime data
  | .addConnector now =>
    match s.acceptor with
    | .numbered conn => if s.listLocked then .ok s else s.addConnector conn now
    | _ => .ok s
  | .register ok =>
    match s.acceptor with
    | .added conn => if s.listLocked then .ok s else s.registerConnector conn ok
    | _ => .ok s
  | .notified =>
    match s.pc with
    | .waiting => .ok (if s.notifyPending then { s with notifyPending := false, pc := .draining } else s)
    | _ => .ok s
  | .readEvent uid answers now =>
    match s.pc with
    | .waiting => readData server s uid answers now
    | _ => .ok s
  | .tick now =>
    match s.pc with
    | .waiting => .ok (tick server s now)
    | _ => .ok s
  | .net answer => netStep server s answer

/-! ## A small system -/

/-- A server with one net thread. -/
def soleServer : Server := ⟨1, 0, fun c => (c.inBuf, c.data)⟩

/-- A connection from a peer is accepted and added. -/
def opening : List Action :=
  [.accept 7 (ascii "1.2.3.4") 80 3 10 0 (.zero 8), .addConnector 0, .register true]

/-- Connectors nobody has written to. -/
def blankConnectors : Connectors := fun _ => Connector.ofFd 0 0 0 (.zero 8)

/-- A call whose command is accepted at once. -/
theorem call_accepted (server : Server) {s : NetThread} {k : Nat} {call : Call} {d : SendData}
    (hcmd : call.command = some d) (hidle : s.producers k = none)
    (hroom : s.sendlist.isFull = false) :
    ∃ t, run (step server) s [.call k call, .push k, .push k, .push k] = .ok t ∧ t.pc = s.pc ∧
      t.connectorList = s.connectorList ∧ t.connectors = s.connectors ∧ t.producers k = none ∧
      t.sendlist = s.sendlist.pushLocked (s.acceptedNum, d) ∧
      t.acceptedNum = s.acceptedNum + 1 ∧ t.notifyPending = true ∧
      t.log = s.log ++ [.accepted s.acceptedNum d] := by
  simp only [run, step, beginCall, hidle, hcmd, producerStep, pushStep, setProducer, if_true, hroom,
    Bool.false_eq_true, if_false, emit]
  exact ⟨_, rfl, rfl, rfl, rfl, if_pos rfl, rfl, rfl, rfl, rfl⟩

end NetThread

end Sails.Net
