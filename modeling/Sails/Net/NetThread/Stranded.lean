import Sails.Base.EventTable.WriteInterest
import Sails.Net.NetThread.Accepted

/-!
# Output left in a connection

What `::write` does not take stays in `out_buf` until the next send command for the connection,
or until the event loop reports the descriptor writable, if it is asked to.

- `Looped`, `loopedStep`: a net thread with its event loop
- `LoopedOk`: no connection's descriptor is ever registered for writing
- `no_stranded_output`: between callbacks nothing is left in an open connection, as long as each
  `::write` takes all that waits
-/

namespace Sails.Net

open TransitionRun
open CMemory
open Sails.Base

/-! ## A net thread with its event loop -/

/-- The callbacks, as the event table names them. -/
def readPipeCb : Nat := 0
def readDataCb : Nat := 1

/-- The event that `create_event_loop` adds for `notify`, and `send` modifies. -/
def notifyEvent (notify : Int) : Event := ⟨notify, eventWrite, 0, some readPipeCb, 0⟩

/-- The event that `add_connector` adds. -/
def Connector.readEvent (c : Connector) : Event :=
  ⟨c.connectFd, eventRead, 0, some readDataCb, c.id.toNat⟩

/-- `create_event_loop`, with its assertion. -/
def createEventLoop (shutdownfd notify : Int) (reallocOk : Bool) : Except Fault EventLoop :=
  match (EventLoop.init shutdownfd).addEvent (notifyEvent notify) true reallocOk with
  | .error e => .error e
  | .ok (loop, added) => if added then .ok loop else .error .assertion

/-- The descriptor is closed. -/
def NetEvent.closes (fd : Int) : NetEvent → Bool
  | .closeFd _ closed => decide (closed = fd)
  | _ => false

/-- The kernel forgets the registrations of closed descriptors. -/
def forgetClosed (loop : EventLoop) (events : List NetEvent) : EventLoop :=
  { loop with epoll := fun fd => if events.any (NetEvent.closes fd) then none else loop.epoll fd }

/-- The kernel takes all of these bytes, and `send` can offer them. -/
def WriteAnswer.TakesAll (answer : WriteAnswer) (bytes : Bytes) : Prop :=
  bytes = [] ∨ bytes.length < 2 ^ 31 ∧ ∃ n, answer = .took n ∧ bytes.length ≤ n

namespace Connector

variable {c c' : Connector} {answer : WriteAnswer}

/-- `send` empties the output buffer if the kernel takes what is in it. -/
theorem send_all (htakes : answer.TakesAll c.outBuf.content) :
    (c.send answer).1.outBuf.content = [] := by
  unfold send
  split
  · split
    · rename_i hpos
      rcases htakes with hnil | ⟨hlen, n, rfl, hle⟩
      · rw [Buffer.content_retrieve, hnil, List.drop_nil]
      -- the whole buffer is offered, since its length fits in an `int`
      · have hoffered : c.offered = c.outBuf.content := by
          rw [offered, ← Buffer.length_content, toInt32_of_lt hlen, Int.toNat_natCast,
            Buffer.length_content, Buffer.content_eq_take_peek]
        have htaken : (WriteAnswer.took n).taken c.offered = c.outBuf.content := by
          rw [hoffered]
          exact List.take_of_length_le hle
        rw [Buffer.content_retrieve, htaken, List.drop_length]
    · rename_i hpos
      rcases htakes with hnil | ⟨hlen, -⟩
      · exact hnil
      -- a length that fits in an `int` and is not positive is 0
      · rw [← Buffer.length_content, toInt32_of_lt hlen] at hpos
        have hzero : c.outBuf.content.length = 0 := by omega
        exact List.eq_nil_of_length_eq_zero hzero
  · exact Buffer.content_retrieveAll _

/-- `write` and `send`, if the kernel takes what waited and what is added. -/
theorem write_send_all {buffer : Bytes}
    (htakes : answer.TakesAll (c.outBuf.content ++ Connections.narrow buffer))
    (h : c.write buffer (toInt32 buffer.length) = .ok c') :
    (c'.send answer).1.outBuf.content = [] := by
  apply send_all
  have hcontent : c'.outBuf.content = c.outBuf.content ++ Connections.narrow buffer := by
    unfold write at h
    split at h
    · obtain ⟨b, hok, hcontent⟩ :=
        c.outBuf.append_spec (buffer.take (toInt32 buffer.length).toNat)
      rw [hok] at h
      cases h
      exact hcontent
    · rename_i hpos
      cases h
      rw [Connections.narrow, Int.toNat_of_nonpos (Int.not_lt.mp hpos), List.take_zero,
        List.append_nil]
  rw [hcontent]
  exact htakes

end Connector

namespace Connections

/-- Only the output of a send command changes what waits for a connection. -/
theorem Step.outgoing {c c' : Connections} {events : List NetEvent} (h : Step c events c')
    (hno : ∀ k d a taken, events ≠ [.took k d, .output a taken])
    (hempty : ∀ a p, c.peer a = some p → p.outgoing = []) {a : ConnectorPtr} {p : Peer}
    (hp : c'.peer a = some p) : p.outgoing = [] := by
  have hset : ∀ (b : ConnectorPtr) (q : Peer), q.outgoing = [] →
      (if a = b then some q else c.peer a) = some p → p.outgoing = [] := by
    intro b q hq hp
    split at hp
    · cases hp
      exact hq
    · exact hempty a p hp
  cases h with
  | @output k d rest b q taken outgoing _ _ _ _ _ => exact absurd rfl (hno k d b taken)
  | @shut b q _ hq => exact hset b { q with isClosed := true } (hempty b q hq) hp
  | @numbered b q _ _ _ hout => exact hset b q hout hp
  | _ => exact hempty a p hp

end Connections

namespace NetThread

variable {server : Server} {act : Action} {s t : NetThread}

/-- A net thread and its event loop. -/
structure Looped where
  net : NetThread
  loop : EventLoop

/-- The calls to the event loop, other than the one in `add_connector`. -/
inductive LoopCall where
  | eventStop (fd : Int)
  | modEvOnly

/-- The call to the event loop that comes with a step. -/
def loopCall (s : NetThread) : Action → Option LoopCall
  | .push k =>
    match s.producers k with
    | some p => if p.phase = .notifying then some .modEvOnly else none
    | none => none
  | .net _ =>
    match s.pc with
    | .closing .eventStop conn _ => some (.eventStop (s.connectors conn).connectFd)
    | .requesting p _ => if p.phase = .notifying then some .modEvOnly else none
    | _ => none
  | _ => none

def callLoop (notify : Int) (loop : EventLoop) : Option LoopCall → Except Fault (EventLoop × Bool)
  | none => .ok (loop, true)
  | some (.eventStop fd) => loop.eventStop fd
  | some .modEvOnly => loop.modEvOnly (notifyEvent notify)

/-- The net thread moves; the kernel forgets what is closed. -/
def advance (server : Server) (s : NetThread) (loop : EventLoop) (act : Action) :
    Except Fault Looped :=
  match step server s act with
  | .error e => .error e
  | .ok t => .ok ⟨t, forgetClosed loop (t.log.drop s.log.length)⟩

/-- One step; `register` carries the answer of `realloc`, and the kernel's `accept` returns no
descriptor that is in use. -/
def loopedStep (server : Server) (notify : Int) (w : Looped) (act : Action) :
    Except Fault Looped :=
  match act with
  | .register reallocOk =>
    match w.net.acceptor with
    | .added conn =>
      if w.net.listLocked then .ok w
      else
        match w.loop.addEvent (w.net.connectors conn).readEvent true reallocOk with
        | .error e => .error e
        | .ok (loop, ok) => advance server w.net loop (.register ok)
    | _ => .ok w
  | act =>
    if act.accepts.any (fun address => decide (address.1 = notify)) then .ok w
    else
      match callLoop notify w.loop (loopCall w.net act) with
      | .error e => .error e
      | .ok (loop, _) => advance server w.net loop act

/-! ## No interest in writing -/

/-- What every run keeps: only `notify` is registered for writing, and it is no connection's. -/
structure LoopedOk (notify : Int) (w : Looped) : Prop where
  wf : w.net.Wf
  fds : ∀ a, a < w.net.nextConnector → (w.net.connectors a).connectFd ≠ notify
  interest : ∀ fd, w.loop.wantsWrite fd = true → fd = notify

variable {notify : Int} {w w' : Looped} {loop : EventLoop}

theorem wantsWrite_forgetClosed {events : List NetEvent} {fd : Int}
    (h : (forgetClosed loop events).wantsWrite fd = true) : loop.wantsWrite fd = true := by
  unfold EventLoop.wantsWrite forgetClosed at h
  dsimp only at h
  split at h
  · rename_i mask heq
    split at heq
    · cases heq
    · unfold EventLoop.wantsWrite
      rw [heq]
      exact h
  · cases h

theorem LoopedOk.advance (hok : LoopedOk notify w)
    (hfd : ∀ address, act.accepts = some address → address.1 ≠ notify)
    (hloop : ∀ fd, loop.wantsWrite fd = true → fd = notify)
    (h : advance server w.net loop act = .ok w') : LoopedOk notify w' := by
  unfold NetThread.advance at h
  split at h
  · cases h
  · rename_i t hstep
    cases h
    obtain ⟨_, hsim⟩ := step_simulates hok.wf hstep
    refine ⟨hsim.wf, ?_, fun fd hwants => hloop fd (wantsWrite_forgetClosed hwants)⟩
    intro a ha
    rcases step_made hok.wf hstep with hmade | ⟨connfd, ip, port, haccepts, -, -, hmade⟩
    · have ha' : a < w.net.nextConnector := by
        rw [← hmade.next]
        exact ha
      -- an older connection keeps its descriptor
      rw [(step_kept hok.wf hstep ha').2.2]
      exact hok.fds a ha'
    · by_cases hnew : a = w.net.nextConnector
      · subst hnew
        -- the new one has the descriptor that `accept` returned
        rw [hmade.fd]
        exact hfd _ haccepts
      · have hle : a < w.net.nextConnector + 1 := by
          rw [← hmade.next]
          exact ha
        have ha' : a < w.net.nextConnector := Nat.lt_of_le_of_ne (Nat.le_of_lt_succ hle) hnew
        rw [(step_kept hok.wf hstep ha').2.2]
        exact hok.fds a ha'

/-- **Step**: nobody registers a connection's descriptor for writing. -/
theorem loopedStep_ok (hok : LoopedOk notify w) (h : loopedStep server notify w act = .ok w') :
    LoopedOk notify w' := by
  unfold loopedStep at h
  split at h
  · split at h
    · rename_i conn _
      split at h
      · cases h
        exact hok
      · split at h
        · cases h
        · rename_i loop ok hadd
          refine hok.advance (by rintro _ ⟨⟩) ?_ h
          -- an accepted connection is registered for reading only
          refine (EventLoop.addEvent_registers hadd).wantsWrite ?_ hok.interest
          intro hmask
          exact absurd (show epollEvents eventRead &&& epollOut = 0 by decide) hmask
    · cases h
      exact hok
  · split at h
    · cases h
      exact hok
    · rename_i hfresh
      split at h
      · cases h
      · rename_i loop ok hcall
        refine hok.advance ?_ ?_ h
        · intro address haddress heq
          rw [haddress] at hfresh
          exact hfresh (decide_eq_true heq)
        · unfold callLoop at hcall
          split at hcall
          · cases hcall
            exact hok.interest
          -- a closed one is registered for nothing
          · refine (EventLoop.eventStop_registers hcall 0).wantsWrite ?_ hok.interest
            intro hmask
            exact absurd (show (0 : Mask) &&& epollOut = 0 by decide) hmask
          -- and write interest is only set on the descriptor of the notifications
          · refine (EventLoop.modEvOnly_registers hcall).wantsWrite ?_ hok.interest
            intro _
            rfl

/-- The event loop has only just been created. -/
theorem loopedOk_init {shutdownfd : Int} {reallocOk : Bool} (server : Server) (maxSize : Nat) (now : Int)
    (connectors : Connectors) (h : createEventLoop shutdownfd notify reallocOk = .ok loop) :
    LoopedOk notify ⟨init server maxSize now connectors, loop⟩ := by
  refine ⟨wf_init server maxSize now connectors, fun a ha => absurd ha (Nat.not_lt_zero a), ?_⟩
  unfold createEventLoop at h
  split at h
  · cases h
  · rename_i loop' added hadd
    split at h
    · cases h
      refine (EventLoop.addEvent_registers hadd).wantsWrite (fun _ => rfl) ?_
      intro fd hwants
      -- the loop's own socket is registered for reading
      unfold EventLoop.wantsWrite EventLoop.init at hwants
      dsimp only at hwants
      by_cases hfd : fd = shutdownfd
      · subst hfd
        rw [Function.update_self] at hwants
        cases hwants
      · rw [Function.update_of_ne hfd] at hwants
        cases hwants
    · cases h

/-! ## Nothing waits -/

/-- Nothing waits in any connector. -/
def NoneWaiting (s : NetThread) : Prop :=
  ∀ a, a < s.nextConnector → (s.connectors a).outBuf.content = []

/-- If the step carries a send command out, the kernel takes what waits for the connection and
what the command adds. -/
def KernelTakesAll (s : NetThread) (act : Action) : Prop :=
  ∀ d a answer, s.CarriesOut act d a → d.cmd = .send → act = .net answer →
    answer.TakesAll ((s.connectors a).outBuf.content ++ Connections.narrow d.buffer)

/-- **Step**: nothing waits as long as the kernel takes all. -/
theorem step_noneWaiting (hwf : s.Wf) (hempty : s.NoneWaiting) (htakes : s.KernelTakesAll act)
    (h : step server s act = .ok t) : t.NoneWaiting := by
  obtain ⟨events, hsim⟩ := step_simulates hwf h
  by_cases hsend : ∃ d a, s.CarriesOut act d a ∧ d.cmd = .send
  · obtain ⟨d, conn, hcarries, hcmd⟩ := hsend
    obtain ⟨⟨answer, rfl⟩, ⟨k, hpc⟩, htarget⟩ := id hcarries
    have hall := htakes d conn answer hcarries hcmd rfl
    simp only [step, netStep, hpc, handle, htarget, perform, emit, hcmd, writeAndSend] at h
    split at h
    · cases h
    · rename_i c hwrite
      cases h
      -- the connection of the command has sent all, the others are as they were
      have hout := Connector.write_send_all hall hwrite
      intro a ha
      by_cases hac : a = conn
      · subst hac
        exact (congrArg (fun c => Buffer.content (Connector.outBuf c))
          (Connectors.set_self s.connectors a (c.send answer).1)).trans hout
      · exact (congrArg (fun c => Buffer.content (Connector.outBuf c))
          (Connectors.set_ne hac)).trans (hempty a ha)
  -- no output, so what waits is what waited
  · intro a ha
    have hpeer : t.abs.peer a = some (t.connectors a).peer := if_pos ha
    refine hsim.step.outgoing ?_ ?_ hpeer
    · rintro k d b taken rfl
      exact hsend ⟨d, b, hsim.output k d b taken (List.mem_cons_self ..)
        (List.mem_cons_of_mem _ (List.mem_singleton_self _))⟩
    · intro b p hp
      by_cases hb : b < s.nextConnector
      · have hp' : s.abs.peer b = some (s.connectors b).peer := if_pos hb
        cases hp'.symm.trans hp
        exact hempty b hb
      · have hnone : s.abs.peer b = none := if_neg hb
        rw [hnone] at hp
        cases hp

/-! ## Stranded output -/

/-- The net thread is between two callbacks and its send list is empty. -/
def AtRest (s : NetThread) : Prop := s.pc = .waiting ∧ s.sendlist.queue = []

/-- Nothing waits in an open connection of the list. -/
def OpenFlushed (s : NetThread) : Prop :=
  ∀ a, s.isListed a = true → (s.connectors a).isOpen = true → (s.connectors a).outBuf.content = []

/-- What waits in an open connection of the list waits for its descriptor to be writable. -/
def NoneStranded (w : Looped) : Prop :=
  ∀ a, w.net.isListed a = true → (w.net.connectors a).isOpen = true →
    (w.net.connectors a).outBuf.content ≠ [] →
    w.loop.wantsWrite (w.net.connectors a).connectFd = true

/-- Nothing is stranded exactly when nothing is left at all. -/
theorem LoopedOk.noneStranded_iff (hok : LoopedOk notify w) :
    NoneStranded w ↔ w.net.OpenFlushed := by
  constructor
  · intro hnone a hlisted hopen
    by_contra hleft
    have hmade := hok.wf.made_of_seated (.inl hlisted)
    exact hok.fds a hmade (hok.interest _ (hnone a hlisted hopen hleft))
  · intro hflushed a hlisted hopen hleft
    exact absurd (hflushed a hlisted hopen) hleft

/-- The kernel takes all that it is offered in this step. -/
def WritesWhole (w : Looped) (act : Action) : Prop := w.net.KernelTakesAll act

theorem loopedStep_noneWaiting (hok : LoopedOk notify w) (hempty : w.net.NoneWaiting)
    (htakes : WritesWhole w act) (h : loopedStep server notify w act = .ok w') :
    w'.net.NoneWaiting := by
  -- the event loop changes no connector
  have hadvance : ∀ (loop : EventLoop) (act' : Action), w.net.KernelTakesAll act' →
      advance server w.net loop act' = .ok w' → w'.net.NoneWaiting := by
    intro loop act' htakes' h
    unfold advance at h
    split at h
    · cases h
    · rename_i t hstep
      cases h
      exact step_noneWaiting hok.wf hempty htakes' hstep
  unfold loopedStep at h
  split at h
  · split at h
    · split at h
      · cases h
        exact hempty
      · split at h
        · cases h
        · refine hadvance _ _ ?_ h
          intro d a answer _ _ hact
          cases hact
    · cases h
      exact hempty
  · split at h
    · cases h
      exact hempty
    · split at h
      · cases h
      · exact hadvance _ _ htakes h

/-- **Stranded output**: in every state of every run, nothing is stranded exactly when nothing is
left in an open connection; and nothing is left in a run in which each `::write` of a send
command takes all that waits for the connection. -/
theorem no_stranded_output (server : Server) (maxSize : Nat) (now : Int) (connectors : Connectors)
    (shutdownfd notify : Int) (reallocOk : Bool) (loop : EventLoop) (as : List Action) (w : Looped)
    (hcreate : createEventLoop shutdownfd notify reallocOk = .ok loop)
    (hrun : run (loopedStep server notify) ⟨init server maxSize now connectors, loop⟩ as = .ok w) :
    (NoneStranded w ↔ w.net.OpenFlushed) ∧
      (Along (loopedStep server notify) WritesWhole ⟨init server maxSize now connectors, loop⟩ as →
        NoneStranded w) := by
  have hinit := loopedOk_init server maxSize now connectors hcreate
  have hok : LoopedOk notify w := run_invariant' (fun _ _ _ hw h => loopedStep_ok hw h) hinit hrun
  refine ⟨hok.noneStranded_iff, ?_⟩
  intro hwhole
  have hempty : LoopedOk notify w ∧ w.net.NoneWaiting :=
    run_invariant (I := fun w => LoopedOk notify w ∧ w.net.NoneWaiting)
      (fun _ _ _ hw htakes h =>
        ⟨loopedStep_ok hw.1 h, loopedStep_noneWaiting hw.1 hw.2 htakes h⟩)
      ⟨hinit, fun a ha => absurd ha (Nat.not_lt_zero a)⟩ hwhole hrun
  rw [hok.noneStranded_iff]
  intro a hlisted _
  exact hempty.2 a (hok.wf.made_of_seated (.inl hlisted))

/-- A handler sends one byte on a new connection, and `read_pipe_cb` runs to its end. -/
def sendOne (answer : WriteAnswer) : List Action :=
  opening ++ [.call 0 (.send (ascii "1.2.3.4") 80 1 [120]), .push 0, .push 0, .push 0, .notified,
    .net answer, .net answer, .net answer]

/-- The first part of this, up to the event of the notification. -/
def oneSent : List Action :=
  opening ++ [.call 0 (.send (ascii "1.2.3.4") 80 1 [120]), .push 0, .push 0, .push 0, .notified]

set_option maxRecDepth 20000 in
theorem writesWhole_sendOne {loop : EventLoop} (h : createEventLoop 3 4 true = .ok loop) :
    Along (loopedStep soleServer 4) WritesWhole
      ⟨init soleServer ThreadQueue.defaultMaxSize 0 blankConnectors, loop⟩ (sendOne (.took 1)) := by
  have hbefore : Along (loopedStep soleServer 4) WritesWhole
      ⟨init soleServer ThreadQueue.defaultMaxSize 0 blankConnectors, loop⟩ oneSent :=
    (along_of_forall (p := fun act => ∀ answer, act ≠ Action.net answer)
      (by simp [oneSent, opening])).mono
        fun _ _ h _ _ _ hcarries => absurd hcarries (not_carriesOut_of_act h)
  -- of the three steps of the net thread only the second carries the command out
  obtain ⟨t, hrun, hidle⟩ : ∃ t, run (loopedStep soleServer 4)
      ⟨init soleServer ThreadQueue.defaultMaxSize 0 blankConnectors, loop⟩ oneSent = .ok t ∧
        inHand t.net.pc = [] := by
    cases h
    exact ⟨_, rfl, rfl⟩
  obtain ⟨u, hrun', k, d, hhand, hbuffer, htarget, hempty⟩ : ∃ u, run (loopedStep soleServer 4)
      ⟨init soleServer ThreadQueue.defaultMaxSize 0 blankConnectors, loop⟩
        (oneSent ++ [.net (.took 1)]) = .ok u ∧ ∃ k d, u.net.pc = .handling k d ∧
          d.buffer = [120] ∧ u.net.target d = .ok (some 0) ∧
            (u.net.connectors 0).outBuf.content = [] := by
    cases h
    exact ⟨_, rfl, _, _, rfl, rfl, rfl, rfl⟩
  obtain ⟨v, hrun'', hidle'⟩ : ∃ v, run (loopedStep soleServer 4)
      ⟨init soleServer ThreadQueue.defaultMaxSize 0 blankConnectors, loop⟩
        (oneSent ++ [.net (.took 1)] ++ [.net (.took 1)]) = .ok v ∧ inHand v.net.pc = [] := by
    cases h
    exact ⟨_, rfl, rfl⟩
  have hstay : ∀ {w : Looped}, inHand w.net.pc = [] → Along (loopedStep soleServer 4) WritesWhole w
      [.net (.took 1)] := fun hpc =>
    ⟨fun _ _ _ hcarries => absurd hcarries (not_carriesOut_of_pc hpc), fun _ _ => trivial⟩
  have hcarry : Along (loopedStep soleServer 4) WritesWhole u [.net (.took 1)] := by
    refine ⟨fun d' a answer hcarries _ hact => ?_, fun _ _ => trivial⟩
    obtain ⟨-, ⟨k', hpc⟩, htarget'⟩ := hcarries
    cases hhand.symm.trans hpc
    cases htarget.symm.trans htarget'
    cases hact
    rw [hempty, hbuffer]
    exact .inr ⟨by decide, 1, rfl, by decide⟩
  have hsplit : sendOne (.took 1) =
      oneSent ++ [.net (.took 1)] ++ [.net (.took 1)] ++ [.net (.took 1)] := rfl
  rw [hsplit]
  exact ((hbefore.append hrun (hstay hidle)).append hrun' hcarry).append hrun'' (hstay hidle')

set_option maxRecDepth 20000 in
/-- The kernel takes the byte. -/
theorem no_stranded_output_taken :
    ∃ loop w, createEventLoop 3 4 true = .ok loop ∧
      run (loopedStep soleServer 4)
        ⟨init soleServer ThreadQueue.defaultMaxSize 0 blankConnectors, loop⟩
        (sendOne (.took 1)) = .ok w ∧
      NoneStranded w ∧ w.net.OpenFlushed := by
  obtain ⟨loop, hcreate⟩ : ∃ loop, createEventLoop 3 4 true = .ok loop := ⟨_, rfl⟩
  obtain ⟨w, hrun⟩ : ∃ w, run (loopedStep soleServer 4)
      ⟨init soleServer ThreadQueue.defaultMaxSize 0 blankConnectors, loop⟩
        (sendOne (.took 1)) = .ok w := by
    cases hcreate
    exact ⟨_, rfl⟩
  obtain ⟨hiff, hnone⟩ := no_stranded_output soleServer ThreadQueue.defaultMaxSize 0 blankConnectors
    3 4 true loop (sendOne (.took 1)) w hcreate hrun
  have hstranded := hnone (writesWhole_sendOne hcreate)
  exact ⟨loop, w, hcreate, hrun, hstranded, hiff.mp hstranded⟩

set_option maxRecDepth 20000 in
/-- The kernel is not ready: the byte stays in `out_buf`, `read_pipe_cb` is at its end, and nobody
has asked to be told when the descriptor is writable. -/
theorem output_stranded :
    ∃ loop w, createEventLoop 3 4 true = .ok loop ∧
      run (loopedStep soleServer 4)
        ⟨init soleServer ThreadQueue.defaultMaxSize 0 blankConnectors, loop⟩
        (sendOne (.failed .eagain)) = .ok w ∧
      w.net.AtRest ∧ ¬ NoneStranded w := by
  refine ⟨_, _, rfl, rfl, ⟨rfl, rfl⟩, ?_⟩
  intro hnone
  have hwants := hnone 0 rfl rfl (by decide)
  cases hwants

end NetThread

end Sails.Net
