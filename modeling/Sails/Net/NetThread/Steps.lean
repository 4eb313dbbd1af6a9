import Sails.Net.NetThread

/-!
# What each step of a net thread does

`step` fails, does nothing, or has one of the effects below. Invariants are proved by cases on
`Moves`, without unfolding the functions of the model again.

- `Pushes`: a step of a call that puts a command into the send list
- `AfterRequest`: where a close request of the net thread's own leaves it
- `Moves`: a step of the system
- `step_moves`: every step that does not fail is one of them
-/

namespace Sails.Net

open TransitionRun (Fault)
open CMemory
open Sails.Base

namespace NetThread

variable {s t : NetThread}

/-! ## The steps of a call -/

/-- What a step of a call does, and where the call stands then. -/
inductive Pushes (s : NetThread) (p : Pushing) : NetThread → Option Pushing → Prop where
  /-- the list is full -/
  | refused (hphase : p.phase = .testing) (hfull : s.sendlist.isFull = true) :
      Pushes s p s (some { p with phase := if p.data.cmd = .close then .retrying else .notifying })
  /-- the list has room -/
  | passed (hphase : p.phase = .testing) (hroom : s.sendlist.isFull = false) :
      Pushes s p s (some { p with phase := .inserting })
  /-- 10 ms have gone by -/
  | woken (hphase : p.phase = .retrying) : Pushes s p s (some { p with phase := .testing })
  | inserted (hphase : p.phase = .inserting) :
      Pushes s p
        ({ s with
          sendlist := s.sendlist.pushLocked (s.acceptedNum, p.data)
          acceptedNum := s.acceptedNum + 1 }.emit [.accepted s.acceptedNum p.data])
        (some { p with phase := .notifying })
  | notified (hphase : p.phase = .notifying) : Pushes s p { s with notifyPending := true } none

theorem pushStep_pushes (s : NetThread) (p : Pushing) :
    Pushes s p (s.pushStep p).1 (s.pushStep p).2 := by
  unfold pushStep
  split
  · rename_i hphase
    split
    · rename_i hfull
      exact .refused hphase hfull
    · rename_i hroom
      exact .passed hphase (Bool.eq_false_iff.mpr hroom)
  · rename_i hphase
    exact .woken hphase
  · rename_i hphase
    exact .inserted hphase
  · rename_i hphase
    exact .notified hphase

/-- No step of a call moves the net thread. -/
theorem Pushes.pc_eq {p : Pushing} {next : Option Pushing} (h : Pushes s p t next) :
    t.pc = s.pc := by
  cases h <;> rfl

/-! ## The net thread's own close requests -/

/-- Where a close request of the net thread's own leaves it. -/
inductive AfterRequest (c : Connector) (reason : CloseConnectorReason)
    (rest : Option (List (MultimapEntry Int Nat))) : NetPc → Prop where
  /-- no command goes into its own list -/
  | resumed : AfterRequest c reason rest (resume rest)
  /-- the command is to be put in -/
  | requesting {d : SendData}
      (hcmd : (Call.closeConnector c.ip c.port c.id c.connectFd reason).command = some d) :
      AfterRequest c reason rest (.requesting ⟨d, .testing⟩ rest)

theorem requestClose_eq (server : Server) (s : NetThread) (conn : ConnectorPtr)
    (reason : CloseConnectorReason) (rest : Option (List (MultimapEntry Int Nat))) :
    ∃ pc, requestClose server s conn reason rest = { s with pc := pc } ∧
      AfterRequest (s.connectors conn) reason rest pc := by
  unfold requestClose
  dsimp only
  split
  · split
    · exact ⟨_, rfl, .resumed⟩
    · rename_i hcmd
      exact ⟨_, rfl, .requesting hcmd⟩
  · exact ⟨_, rfl, .resumed⟩

/-! ## The steps of the system -/

/-- Where the net thread stands after a step of its own call. -/
def afterPush (rest : Option (List (MultimapEntry Int Nat))) : Option Pushing → NetPc
  | some p => .requesting p rest
  | none => resume rest

/-- What a step does. -/
inductive Moves (server : Server) (s : NetThread) : Action → NetThread → Prop where
  /-- the action is not enabled, or finds nothing to do -/
  | idle {act : Action} (hact : ∀ answer, act ≠ .net answer) : Moves server s act s
  /-- the net thread is in no callback -/
  | waits {answer : WriteAnswer} (hpc : s.pc = .waiting) : Moves server s (.net answer) s
  -- the threads that put commands in
  | begun {k : Nat} {call : Call} {d : SendData} (hfree : s.producers k = none)
      (hcmd : call.command = some d) :
      Moves server s (.call k call) (s.setProducer k (some ⟨d, .testing⟩))
  | pushed {k : Nat} {p : Pushing} {u : NetThread} {next : Option Pushing}
      (hk : s.producers k = some p) (hpush : Pushes s p u next) :
      Moves server s (.push k) (u.setProducer k next)
  -- the acceptor
  | accepted {connfd : Int} {ip : Bytes} {port : UInt16} {listenFd timeout lastRefreshTime : Int}
      {data : ExtData} {uid : UInt32} {list : ConnectorList} (hidle : s.acceptor = .idle)
      (hfd : 0 < connfd) (howns : ownsFd server connfd = true) (hfree : s.listLocked = false)
      (huid : s.connectorList.getUniqId = .ok (uid, list)) :
      Moves server s (.accept connfd ip port listenFd timeout lastRefreshTime data)
        ({ s with
          connectorList := list
          nextConnector := s.nextConnector + 1
          acceptor := .numbered s.nextConnector }.setConnector s.nextConnector
          { Connector.ofFd connfd lastRefreshTime timeout data with
            id := uid, ip := ip, port := port, listenFd := listenFd, timeoutCB := true })
  | added {conn : ConnectorPtr} {now : Int} {uid : UInt32} {numbered list : ConnectorList}
      (hnumbered : s.acceptor = .numbered conn) (hfree : s.listLocked = false)
      (huid : (if (s.connectors conn).id = 0 then s.connectorList.getUniqId
        else .ok ((s.connectors conn).id, s.connectorList)) = .ok (uid, numbered))
      (hadd : numbered.add
        (s.connectors.set conn { s.connectors conn with owner := true, id := uid }) conn
        ((s.connectors conn).timeout + now) = .ok list) :
      Moves server s (.addConnector now)
        ({ s.setConnector conn { s.connectors conn with owner := true, id := uid } with
          connectorList := list
          acceptor := .added conn }.emit
            [.added conn uid (s.connectors conn).ip (s.connectors conn).port])
  | registered {conn : ConnectorPtr} (hadded : s.acceptor = .added conn)
      (hfree : s.listLocked = false) : Moves server s (.register true) { s with acceptor := .idle }
  /-- `event_ctl` has failed -/
  | unregistered {conn : ConnectorPtr} {list : ConnectorList} (hadded : s.acceptor = .added conn)
      (hfree : s.listLocked = false)
      (hdel : s.connectorList.del (s.connectors conn).id = .ok list) :
      Moves server s (.register false)
        ({ s with connectorList := list, acceptor := .idle }.emit
          (.removed conn :: if s.holds conn then [] else
            (s.connectors conn).destructor.toList.map (.closeFd conn)))
  -- the events the net thread waits for
  | notified (hpc : s.pc = .waiting) (hpending : s.notifyPending = true) :
      Moves server s .notified { s with notifyPending := false, pc := .draining }
  /-- reading has failed or come to the end -/
  | readEnded {uid : UInt32} {answers : List (ReadAnswer Connector.readBytes)} {now : Int}
      {conn : ConnectorPtr} {c : Connector} {events : List NetEvent} {pc : NetPc}
      (hpc : s.pc = .waiting) (hget : s.connectorList.get uid = .ok (some conn))
      (hloop : readLoop server conn (s.connectors conn) 0 [] answers = .ok (some (c, events, true)))
      (hafter : AfterRequest c .clientClosed none pc) :
      Moves server s (.readEvent uid answers now)
        { (s.setConnector conn c).emit events with pc := pc }
  | readOn {uid : UInt32} {answers : List (ReadAnswer Connector.readBytes)} {now : Int}
      {conn : ConnectorPtr} {c : Connector} {events : List NetEvent} {list : ConnectorList}
      {connectors : Connectors} (hpc : s.pc = .waiting)
      (hget : s.connectorList.get uid = .ok (some conn))
      (hloop : readLoop server conn (s.connectors conn) 0 [] answers =
        .ok (some (c, events, false)))
      (hrefresh : s.connectorList.refresh (s.connectors.set conn c) c.id (c.timeout + now) =
        .ok (list, connectors)) :
      Moves server s (.readEvent uid answers now)
        (({ (s.setConnector conn c).emit events with
          connectorList := list
          connectors := connectors }.setConnector conn (parse server (connectors conn))).emit
            [.parsed conn])
  | ticked {now : Int} (hpc : s.pc = .waiting) (hindex : server.index = 0)
      (hlate : ¬ now - s.connectorList.lastTimeoutTime < 1) :
      Moves server s (.tick now)
        { s with
          connectorList := { s.connectorList with lastTimeoutTime := now }
          pc := .ticking (s.connectorList.tl.upTo now) }
  -- `read_pipe_cb`
  | drained {answer : WriteAnswer} (hpc : s.pc = .draining) (hempty : s.sendlist.queue = []) :
      Moves server s (.net answer) { s with pc := .waiting }
  | popped {answer : WriteAnswer} {serial : Nat} {d : SendData}
      {rest : ThreadQueue (Nat × SendData)} (hpc : s.pc = .draining)
      (hqueue : s.sendlist.queue = (serial, d) :: rest.queue) :
      Moves server s (.net answer) { s with sendlist := rest, pc := .handling serial d }
  /-- the command finds no connection -/
  | missed {answer : WriteAnswer} {serial : Nat} {d : SendData} (hpc : s.pc = .handling serial d)
      (htarget : s.target d = .ok none) :
      Moves server s (.net answer) ({ s with pc := .draining }.emit [.took serial d])
  | sent {answer : WriteAnswer} {serial : Nat} {d : SendData} {conn : ConnectorPtr} {c : Connector}
      (hpc : s.pc = .handling serial d) (htarget : s.target d = .ok (some conn))
      (hcmd : d.cmd = .send)
      (hwrite : (s.connectors conn).write d.buffer (toInt32 d.buffer.length) = .ok c) :
      Moves server s (.net answer)
        (({ s.emit [.took serial d] with pc := .draining }.setConnector conn
          (c.send answer).1).emit [.output conn (c.send answer).2])
  | calledBack {answer : WriteAnswer} {serial : Nat} {d : SendData} {conn : ConnectorPtr}
      (hpc : s.pc = .handling serial d) (htarget : s.target d = .ok (some conn))
      (hcmd : d.cmd = .close) :
      Moves server s (.net answer)
        ({ s.emit [.took serial d] with pc := .closing .eventStop conn d.uid }.emit
          [.closedCB conn serial (scanReason d.buffer)
            (s.connectorList.first (slotOf (s.connectors conn).id))])
  | modified {answer : WriteAnswer} {serial : Nat} {d : SendData} {conn : ConnectorPtr}
      {data : ExtData} (hpc : s.pc = .handling serial d) (htarget : s.target d = .ok (some conn))
      (hcmd : d.cmd = .modify) (hdata : data.bytes = d.buffer.take 8) :
      Moves server s (.net answer)
        ({ s.emit [.took serial d] with pc := .draining }.setConnector conn
          { s.connectors conn with data := data })
  -- behind `ClosedConnectCB`
  | stopped {answer : WriteAnswer} {conn : ConnectorPtr} {uid : UInt32}
      (hpc : s.pc = .closing .eventStop conn uid) :
      Moves server s (.net answer)
        ({ s with pc := .closing .close conn uid }.emit
          [.eventStop conn (s.connectors conn).connectFd])
  | shut {answer : WriteAnswer} {conn : ConnectorPtr} {uid : UInt32}
      (hpc : s.pc = .closing .close conn uid) :
      Moves server s (.net answer)
        (({ s with pc := .closing .del conn uid }.setConnector conn
          { (s.connectors conn).close.1 with data := .zero 8 }).emit
            ((s.connectors conn).close.2.toList.map (.closeFd conn)))
  | removed {answer : WriteAnswer} {conn : ConnectorPtr} {uid : UInt32} {list : ConnectorList}
      (hpc : s.pc = .closing .del conn uid) (hdel : s.connectorList.del uid = .ok list) :
      Moves server s (.net answer)
        ({ s with connectorList := list, pc := .closing .release conn uid }.emit [.removed conn])
  | released {answer : WriteAnswer} {conn : ConnectorPtr} {uid : UInt32}
      (hpc : s.pc = .closing .release conn uid) :
      Moves server s (.net answer)
        ({ s with pc := .draining }.emit
          ((s.connectors conn).destructor.toList.map (.closeFd conn)))
  -- `checkTimeout`
  | checked {answer : WriteAnswer} (hpc : s.pc = .ticking []) :
      Moves server s (.net answer) { s with pc := .waiting }
  /-- the connection is the listening port of a datagram server -/
  | passedOver {answer : WriteAnswer} {e : MultimapEntry Int Nat}
      {rest : List (MultimapEntry Int Nat)} {conn : ConnectorPtr}
      (hpc : s.pc = .ticking (e :: rest))
      (hfirst : s.connectorList.first e.value = some conn)
      (hlisten : (s.connectors conn).listenFd = -1) :
      Moves server s (.net answer) { s with pc := .ticking rest }
  | timedOut {answer : WriteAnswer} {e : MultimapEntry Int Nat}
      {rest : List (MultimapEntry Int Nat)} {conn : ConnectorPtr} {pc : NetPc}
      (hpc : s.pc = .ticking (e :: rest))
      (hfirst : s.connectorList.first e.value = some conn)
      (hlisten : (s.connectors conn).listenFd ≠ -1)
      (hafter : AfterRequest (s.connectors conn) .timeout (some rest) pc) :
      Moves server s (.net answer)
        { s.setConnector conn (s.connectors conn).setIsTimeout with pc := pc }
  /-- a step of the net thread's own call of `close_connector` -/
  | requested {answer : WriteAnswer} {p : Pushing} {rest : Option (List (MultimapEntry Int Nat))}
      {u : NetThread} {next : Option Pushing} (hpc : s.pc = .requesting p rest)
      (hpush : Pushes s p u next) :
      Moves server s (.net answer) { u with pc := afterPush rest next }

variable {server : Server} {act : Action} {answer : WriteAnswer}

theorem accept_moves {connfd : Int} {ip : Bytes} {port : UInt16}
    {listenFd timeout lastRefreshTime : Int} {data : ExtData}
    (h : accept server s connfd ip port listenFd timeout lastRefreshTime data = .ok t) :
    Moves server s (.accept connfd ip port listenFd timeout lastRefreshTime data) t := by
  unfold accept at h
  split at h
  · rename_i hguard
    obtain ⟨hidle, hfd, howns, hfree⟩ := hguard
    split at h
    · cases h
    · rename_i huid
      cases h
      exact .accepted hidle hfd howns hfree huid
  · cases h
    exact .idle (by simp)

theorem addConnector_moves {conn : ConnectorPtr} {now : Int}
      (hnumbered : s.acceptor = .numbered conn)
    (hfree : s.listLocked = false) (h : s.addConnector conn now = .ok t) :
    Moves server s (.addConnector now) t := by
  unfold addConnector at h
  dsimp only at h
  split at h
  · cases h
  · rename_i huid
    split at h
    · cases h
    · rename_i hadd
      cases h
      exact .added hnumbered hfree huid hadd

theorem registerConnector_moves {conn : ConnectorPtr} {ok : Bool}
    (hadded : s.acceptor = .added conn) (hfree : s.listLocked = false)
    (h : s.registerConnector conn ok = .ok t) : Moves server s (.register ok) t := by
  unfold registerConnector at h
  cases ok with
  | true =>
    cases h
    exact .registered hadded hfree
  | false =>
    simp only [Bool.false_eq_true, if_false] at h
    split at h
    · cases h
    · rename_i hdel
      cases h
      exact .unregistered hadded hfree hdel

theorem readData_moves {uid : UInt32} {answers : List (ReadAnswer Connector.readBytes)} {now : Int}
    (hpc : s.pc = .waiting) (h : readData server s uid answers now = .ok t) :
    Moves server s (.readEvent uid answers now) t := by
  have hidle : Moves server s (.readEvent uid answers now) s :=
    .idle (by simp)
  unfold readData at h
  split at h
  · cases h
  · cases h
    exact hidle
  · rename_i conn hget
    split at h
    · cases h
    · cases h
      exact hidle
    · rename_i c events err hloop
      have hself : ((s.setConnector conn c).emit events).connectors conn = c :=
        Connectors.set_self ..
      simp only [readEnd, hself] at h
      cases err with
      | true =>
        simp only [if_true] at h
        cases h
        split
        -- nothing is requested for a connection that is closed
        · have hkeeps : { (s.setConnector conn c).emit events with pc := resume none } =
              (s.setConnector conn c).emit events :=
            congrArg (fun pc => { (s.setConnector conn c).emit events with pc := pc }) hpc.symm
          rw [← hkeeps]
          exact .readEnded hpc hget hloop .resumed
        -- the close is requested, and the thread goes on to push it
        · obtain ⟨pc, hrequest, hafter⟩ :=
            requestClose_eq server ((s.setConnector conn c).emit events) conn .clientClosed none
          rw [hrequest]
          rw [hself] at hafter
          exact .readEnded hpc hget hloop hafter
      | false =>
        simp only [Bool.false_eq_true, if_false] at h
        split at h
        · cases h
        · rename_i hrefresh
          cases h
          -- the connection goes on, with a new entry in the timeouts
          exact .readOn hpc hget hloop hrefresh

theorem drain_moves (hpc : s.pc = .draining) (h : s.drain = .ok t) :
    Moves server s (.net answer) t := by
  unfold drain at h
  rcases s.sendlist.popFront_spec with ⟨hempty, hpop⟩ | ⟨⟨serial, d⟩, rest, hpop, hqueue, -⟩
  · rw [hpop] at h
    cases h
    exact .drained hpc hempty
  · rw [hpop] at h
    cases h
    exact .popped hpc hqueue

theorem handle_moves {serial : Nat} {d : SendData} (hpc : s.pc = .handling serial d)
    (h : s.handle serial d answer = .ok t) : Moves server s (.net answer) t := by
  unfold handle at h
  split at h
  · cases h
  · rename_i htarget
    cases h
    exact .missed hpc htarget
  · rename_i conn htarget
    -- one case for each kind of command
    unfold perform at h
    split at h
    · rename_i hcmd
      unfold writeAndSend at h
      split at h
      · cases h
      · rename_i hwrite
        cases h
        exact .sent hpc htarget hcmd hwrite
    · rename_i hcmd
      cases h
      exact .calledBack hpc htarget hcmd
    · rename_i hcmd
      split at h
      · cases h
        exact .modified hpc htarget hcmd rfl
      · cases h

theorem closeStep_moves {stage : CloseStage} {conn : ConnectorPtr} {uid : UInt32}
    (hpc : s.pc = .closing stage conn uid) (h : s.closeStep conn uid stage = .ok t) :
    Moves server s (.net answer) t := by
  cases stage with
  | eventStop =>
    cases h
    exact .stopped hpc
  | close =>
    cases h
    exact .shut hpc
  | del =>
    simp only [closeStep] at h
    split at h
    · cases h
    · rename_i hdel
      cases h
      exact .removed hpc hdel
  | release =>
    cases h
    exact .released hpc

theorem tickStep_moves {entries : List (MultimapEntry Int Nat)} (hpc : s.pc = .ticking entries)
    (h : tickStep server s entries = .ok t) : Moves server s (.net answer) t := by
  unfold tickStep at h
  split at h
  · cases h
    exact .checked hpc
  · split at h
    · cases h
    · rename_i e rest _ conn hfirst
      dsimp only at h
      split at h
      · rename_i hlisten
        cases h
        exact .passedOver hpc hfirst hlisten
      · rename_i hlisten
        cases h
        split
        -- a connection that has timed out gets a close, unless it has one already
        · obtain ⟨pc, hrequest, hafter⟩ := requestClose_eq server
            (s.setConnector conn (s.connectors conn).setIsTimeout) conn .timeout (some rest)
          have hself : (s.setConnector conn (s.connectors conn).setIsTimeout).connectors conn =
              (s.connectors conn).setIsTimeout := Connectors.set_self ..
          rw [hself] at hafter
          rw [hrequest]
          refine .timedOut hpc hfirst hlisten ?_
          cases hafter with
          | resumed => exact .resumed
          | requesting hcmd => exact .requesting hcmd
        · exact .timedOut hpc hfirst hlisten .resumed

theorem netStep_moves (h : netStep server s answer = .ok t) : Moves server s (.net answer) t := by
  unfold netStep at h
  split at h
  · rename_i hpc
    cases h
    exact .waits hpc
  · rename_i hpc
    exact drain_moves hpc h
  · rename_i hpc
    exact handle_moves hpc h
  · rename_i hpc
    exact closeStep_moves hpc h
  · rename_i hpc
    exact tickStep_moves hpc h
  · rename_i p rest hpc
    -- the thread pushes its own command, and goes on with what it was at
    have hpush := pushStep_pushes s p
    generalize s.pushStep p = pushed at h hpush
    obtain ⟨u, next⟩ := pushed
    cases next with
    | some p' =>
      cases h
      exact .requested hpc hpush
    | none =>
      cases h
      exact .requested hpc hpush

/-- **Inversion**: what a step can do. -/
theorem step_moves (h : step server s act = .ok t) : Moves server s act t := by
  -- one case for each action; where its guard fails it is an idle one
  cases act with
  | call k call =>
    cases h
    unfold beginCall
    split
    · rename_i hfree hcmd
      exact .begun hfree hcmd
    · exact .idle (by simp)
  | push k =>
    cases h
    unfold producerStep
    split
    · exact .idle (by simp)
    · rename_i hk
      exact .pushed hk (pushStep_pushes s _)
  | accept connfd ip port listenFd timeout lastRefreshTime data => exact accept_moves h
  | addConnector now =>
    simp only [step] at h
    split at h
    · rename_i conn hnumbered
      split at h
      · cases h
        exact .idle (by simp)
      · rename_i hfree
        exact addConnector_moves hnumbered (Bool.eq_false_iff.mpr hfree) h
    · cases h
      exact .idle (by simp)
  | register ok =>
    simp only [step] at h
    split at h
    · rename_i conn hadded
      split at h
      · cases h
        exact .idle (by simp)
      · rename_i hfree
        exact registerConnector_moves hadded (Bool.eq_false_iff.mpr hfree) h
    · cases h
      exact .idle (by simp)
  | notified =>
    simp only [step] at h
    split at h
    · rename_i hpc
      cases h
      split
      · rename_i hpending
        exact .notified hpc hpending
      · exact .idle (by simp)
    · cases h
      exact .idle (by simp)
  | readEvent uid answers now =>
    simp only [step] at h
    split at h
    · rename_i hpc
      exact readData_moves hpc h
    · cases h
      exact .idle (by simp)
  | tick now =>
    simp only [step] at h
    split at h
    · rename_i hpc
      cases h
      unfold tick
      split
      · rename_i hguard
        exact .ticked hpc hguard.1 hguard.2
      · exact .idle (by simp)
    · cases h
      exact .idle (by simp)
  | net answer => exact netStep_moves h

end NetThread

end Sails.Net
