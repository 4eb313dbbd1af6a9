import Sails.Net.NetThread.Simulation
import Sails.Net.Connections.Streams

/-!
# What is handed to the kernel

- `output_integrity`: the bytes handed out for a connection are the front of what was sent to it
- `close_never_overtakes`: a connection is closed only when all that was sent to it before is
  handed out

Both depend on what the buffers are like. A buffer of 2^31 bytes loses its length in the
conversion to `int`, and a close command does not look at the output buffer.
-/

namespace Sails.Net

open TransitionRun CMemory Connections
open Sails.Base

namespace NetThread

variable {server : Server} {act : Action} {s t : NetThread}

/-! ## Accounts of the code's connections -/

/-- No send command with a buffer of 2^31 bytes or more is carried out on a connection. -/
def SmallBuffers (s : NetThread) (act : Action) : Prop :=
  ∀ d a, s.CarriesOut act d a → d.cmd = .send → d.buffer.length < 2 ^ 31

/-- A close command is carried out on a connection with an empty output buffer only. -/
def NothingWaiting (s : NetThread) (act : Action) : Prop :=
  ∀ d a, s.CarriesOut act d a → d.cmd = .close → (s.connectors a).outBuf.content = []

/-- The state, its abstract state and the log agree. -/
structure OutputOk (s : NetThread) : Prop where
  wf : s.Wf
  ordered : s.abs.Ordered
  streams : ∀ a, s.abs.StreamOk a (stream a s.log)

theorem outputOk_init (server : Server) (maxSize : Nat) (now : Int) (connectors : Connectors) :
    (init server maxSize now connectors).OutputOk where
  wf := wf_init server maxSize now connectors
  ordered := by
    rw [abs_init]
    exact .empty
  streams := by
    intro a
    rw [abs_init]
    exact .empty a

theorem OutputOk.simulated {events : List NetEvent} (h : s.OutputOk) (hsmall : s.SmallBuffers act)
    (hsim : Simulated act s t events) : t.OutputOk where
  wf := hsim.wf
  ordered := h.ordered.step hsim.step
  streams := by
    intro a
    rw [hsim.log, stream_append]
    refine (h.streams a).step h.ordered ?_ hsim.step
    intro k d b bytes htook houtput
    obtain ⟨hcarries, hcmd⟩ := hsim.output k d b bytes htook houtput
    exact hsmall d b hcarries hcmd

/-- **Step**: with small buffers the accounts keep agreeing with the state. -/
theorem step_outputOk (h : s.OutputOk) (hsmall : s.SmallBuffers act)
    (hstep : step server s act = .ok t) : t.OutputOk := by
  obtain ⟨events, hsim⟩ := step_simulates h.wf hstep
  exact h.simulated hsmall hsim

/-! ## Runs of a small system -/

/-- A handler sends one byte on a new connection and requests its close; then the net thread
carries both commands out, with this answer to `::write`. -/
def sendThenClose : List Action :=
  opening ++ [.call 0 (.send (ascii "1.2.3.4") 80 1 [120]), .push 0, .push 0, .push 0,
    .call 0 (.closeConnector (ascii "1.2.3.4") 80 1 7 .serverClosed), .push 0, .push 0, .push 0,
    .notified]

/-- No command is carried out in `sendThenClose`. -/
theorem along_sendThenClose {P : NetThread → Action → Prop}
    (h : ∀ s act, (∀ answer, act ≠ .net answer) → P s act) :
    Along (step server) P s sendThenClose := by
  have hquiet : ∀ act ∈ sendThenClose, ∀ answer, act ≠ .net answer := by
    simp [sendThenClose, opening]
  exact (along_of_forall hquiet).mono h

/-- The net thread has `sendThenClose` behind it and carries the two commands out. -/
def carryOut (answer : WriteAnswer) : List Action :=
  [.net answer, .net answer, .net answer, .net answer]

/-- One send command is carried out. -/
theorem send_carried_out (server : Server) {k : Nat} {d : SendData} {rest : List (Nat × SendData)}
    {conn : ConnectorPtr} {c : Connector} (answer : WriteAnswer) (hpc : s.pc = .draining)
    (hqueue : s.sendlist.queue = (k, d) :: rest) (hcmd : d.cmd = .send)
    (htarget : s.target d = .ok (some conn))
    (hwrite : (s.connectors conn).write d.buffer (toInt32 d.buffer.length) = .ok c) :
    ∃ t, run (step server) s [.net answer, .net answer] = .ok t ∧ t.pc = .draining ∧
      t.sendlist.queue = rest ∧ t.connectorList = s.connectorList ∧
      t.connectors = s.connectors.set conn (c.send answer).1 ∧
      t.log = s.log ++ [.took k d, .output conn (c.send answer).2] := by
  rcases s.sendlist.popFront_spec with ⟨hempty, -⟩ | ⟨x, q, hpop, hcons, -⟩
  · rw [hqueue] at hempty
    cases hempty
  · cases hqueue.symm.trans hcons
    have htarget' : target { s with sendlist := q, pc := .handling k d } d = .ok (some conn) :=
      htarget
    simp only [run, step, netStep, hpc, drain, hpop, handle, htarget', perform, hcmd, writeAndSend,
      emit, hwrite, setConnector, List.append_assoc, List.cons_append, List.nil_append]
    exact ⟨_, rfl, rfl, rfl, rfl, rfl, rfl⟩

/-! ## Output integrity -/

/-- **Output integrity**: in every run that carries small buffers out, the bytes handed to the
kernel for a connection are the front of the buffers of the send commands that were taken from
the list, in its order, while the connection was listed, under its id and its peer's address. -/
theorem output_integrity (server : Server) (maxSize : Nat) (now : Int) (connectors : Connectors)
    (as : List Action) (t : NetThread)
    (hsmall : Along (step server) SmallBuffers (init server maxSize now connectors) as)
    (hrun : run (step server) (init server maxSize now connectors) as = .ok t) (a : ConnectorPtr) :
    (stream a t.log).handed <+: (stream a t.log).sent := by
  have hok : t.OutputOk := run_invariant (fun s act u hs hP h => step_outputOk hs hP h)
    (outputOk_init server maxSize now connectors) hsmall hrun
  exact (hok.streams a).inOrder

set_option maxRecDepth 20000 in
/-- A handler sends one byte; the kernel takes it. -/
theorem output_integrity_taken :
    ∃ t, run (step soleServer) (init soleServer ThreadQueue.defaultMaxSize 0 blankConnectors)
      (sendThenClose ++ [.net (.took 1), .net (.took 1)]) = .ok t ∧
      (stream 0 t.log).handed <+: (stream 0 t.log).sent := by
  refine ⟨_, rfl, output_integrity soleServer ThreadQueue.defaultMaxSize 0 blankConnectors
    (sendThenClose ++ [.net (.took 1), .net (.took 1)]) _ (.append ?_ rfl ?_) rfl 0⟩
  · exact along_sendThenClose fun s act hact d a h => absurd h (not_carriesOut_of_act hact)
  · refine .cons_ok (fun d a h => absurd h (not_carriesOut_of_pc rfl)) rfl (.cons_ok ?_ rfl trivial)
    rintro d a ⟨-, ⟨k, hpc⟩, -⟩ -
    cases hpc
    decide

theorem exists_long (n : Nat) : ∃ long : Bytes, long.length = n + 1 ∧ ∃ rest, long = 97 :: rest :=
  ⟨97 :: List.replicate n 97, by rw [List.length_cons, List.length_replicate], _, rfl⟩

set_option maxRecDepth 20000 in
/-- A buffer of 2^31 bytes is lost as a whole; the byte sent after it is handed out. -/
theorem output_not_integral :
    ¬ ∀ (server : Server) (maxSize : Nat) (now : Int) (connectors : Connectors) (as : List Action)
      (t : NetThread), run (step server) (init server maxSize now connectors) as = .ok t →
      ∀ a, (stream a t.log).handed <+: (stream a t.log).sent := by
  intro hclaim
  obtain ⟨s₀, hopen, hpc₀, hlist₀, hidle₀, hnum₀, hconn₀, hlog₀, hget₀⟩ : ∃ s : NetThread,
      run (step soleServer) (init soleServer ThreadQueue.defaultMaxSize 0 blankConnectors) opening =
        .ok s ∧ s.pc = .waiting ∧ s.sendlist = ThreadQueue.init ThreadQueue.defaultMaxSize ∧
      s.producers 0 = none ∧ s.acceptedNum = 0 ∧
      s.connectors 0 = { Connector.ofFd 7 0 10 (.zero 8) with
        id := 1, ip := ascii "1.2.3.4", port := 80, listenFd := 3, timeoutCB := true,
        owner := true } ∧
      s.log = [.added 0 1 (ascii "1.2.3.4") 80] ∧ s.connectorList.get 1 = .ok (some 0) :=
    ⟨_, rfl, rfl, rfl, rfl, rfl, rfl, rfl, rfl⟩
  obtain ⟨long, hlength, rest, hlong⟩ := exists_long 2147483647
  have hnarrow : ¬ 0 < toInt32 long.length := by
    rw [hlength]
    decide
  -- both commands are accepted
  have hcmd₁ : (Call.send (ascii "1.2.3.4") 80 1 long).command =
    some ⟨.send, 1, long, ascii "1.2.3.4", 80⟩ := rfl
  have hcmd₂ : (Call.send (ascii "1.2.3.4") 80 1 [98]).command =
    some ⟨.send, 1, [98], ascii "1.2.3.4", 80⟩ := rfl
  obtain ⟨s₁, hrun₁, hpc₁, htable₁, hconns₁, hidle₁, hlist₁, hnum₁, -, hlog₁⟩ :=
    call_accepted soleServer hcmd₁ hidle₀ (by rw [hlist₀]; rfl)
  obtain ⟨s₂, hrun₂, hpc₂, htable₂, hconns₂, -, hlist₂, -, hnotify₂, hlog₂⟩ :=
    call_accepted soleServer hcmd₂ hidle₁ (by rw [hlist₁, hlist₀]; rfl)
  have hrun₃ : run (step soleServer) s₂ [.notified] =
      .ok { s₂ with notifyPending := false, pc := .draining } := by
    simp only [run, step, hpc₂, hpc₁, hpc₀, hnotify₂, if_true]
  have hqueue : s₂.sendlist.queue = [(0, ⟨.send, 1, long, ascii "1.2.3.4", 80⟩),
      (1, ⟨.send, 1, [98], ascii "1.2.3.4", 80⟩)] := by
    rw [hlist₂, hlist₁, hlist₀, hnum₁, hnum₀]
    rfl
  have hconn : s₂.connectors 0 = s₀.connectors 0 := by rw [hconns₂, hconns₁]
  have hget : s₂.connectorList.get 1 = .ok (some 0) := by rw [htable₂, htable₁, hget₀]
  -- the first is carried out without effect
  have htarget : ∀ (u : NetThread) (buffer : Bytes), u.connectorList.get 1 = .ok (some 0) →
      u.connectors 0 = s₀.connectors 0 →
      u.target ⟨.send, 1, buffer, ascii "1.2.3.4", 80⟩ = .ok (some 0) := by
    intro u buffer hu hc
    simp only [target, hu, hc, hconn₀, and_self, if_true]
  have hsend : ((s₀.connectors 0).send (.took 0)) = (s₀.connectors 0, none) := by
    rw [hconn₀]
    rfl
  obtain ⟨s₄, hrun₄, hpc₄, hqueue₄, htable₄, hconns₄, hlog₄⟩ := send_carried_out soleServer
    (s := { s₂ with notifyPending := false, pc := .draining }) (c := s₀.connectors 0) (.took 0) rfl
    hqueue rfl (htarget _ _ hget hconn) (by
      change (s₂.connectors 0).write _ _ = _
      rw [hconn, Connector.write, if_neg hnarrow])
  have hconn₄ : s₄.connectors 0 = s₀.connectors 0 := by
    rw [hconns₄, Connectors.set_self, hsend]
  -- the second byte is handed out
  obtain ⟨c, hwrite, htaken⟩ : ∃ c, (s₀.connectors 0).write [98] 1 = .ok c ∧
      (c.send (.took 1)).2 = some [98] := by
    rw [hconn₀]
    exact ⟨_, rfl, rfl⟩
  obtain ⟨s₅, hrun₅, -, -, -, -, hlog₅⟩ := send_carried_out soleServer (.took 1) hpc₄ hqueue₄ rfl
    (htarget _ _ (htable₄ ▸ hget) hconn₄) (c := c) (by rw [hconn₄]; exact hwrite)
  have hrun := (run_append hopen).trans ((run_append hrun₁).trans ((run_append hrun₂).trans
    ((run_append hrun₃).trans ((run_append hrun₄).trans hrun₅))))
  have hinOrder := hclaim _ _ _ _ _ _ hrun 0
  have hlog : s₅.log = [.added 0 1 (ascii "1.2.3.4") 80,
      .accepted 0 ⟨.send, 1, long, ascii "1.2.3.4", 80⟩,
      .accepted 1 ⟨.send, 1, [98], ascii "1.2.3.4", 80⟩,
      .took 0 ⟨.send, 1, long, ascii "1.2.3.4", 80⟩, .output 0 none,
      .took 1 ⟨.send, 1, [98], ascii "1.2.3.4", 80⟩, .output 0 (some [98])] := by
    rw [hlog₅, hlog₄, htaken, hsend]
    change (s₂.log ++ _) ++ _ = _
    rw [hlog₂, hlog₁, hnum₁, hnum₀, hlog₀]
    rfl
  rw [hlog] at hinOrder
  have hbytes : [98] <+: long ++ [98] := by
    simpa [stream, Stream.next, Stream.Wants, Stream.empty, Stream.sent, SendData.ident] using hinOrder
  rw [hlong, List.cons_append, List.cons_prefix_cons] at hbytes
  exact absurd hbytes.1 (by decide)

/-! ## Closing -/

/-- **Step**: a close command that finds nothing waiting finds everything handed out. -/
theorem step_flushed (h : s.OutputOk) (hflushed : Flushed s.log) (hempty : s.NothingWaiting act)
    (hstep : step server s act = .ok t) : Flushed t.log := by
  obtain ⟨events, hsim⟩ := step_simulates h.wf hstep
  rw [hsim.log]
  refine hflushed.step h.ordered h.streams ?_ hsim.step
  intro a k reason holder hmem p hp
  obtain ⟨d, hcarries, hcmd⟩ := hsim.closed a k reason holder hmem
  -- the peer's bytes are those of the connector's output buffer
  have hpeer := h.wf.peer_of_first (h.wf.isFor_of_target hcarries.2.2).2.1
  cases hpeer.symm.trans hp
  exact hempty d a hcarries hcmd

/-- A close command on a connection with bytes in its output buffer overtakes them. -/
theorem overtakes_of_waiting (h : s.OutputOk) {d : SendData} {a : ConnectorPtr}
    (hcarries : s.CarriesOut act d a) (hcmd : d.cmd = .close)
    (hwaiting : (s.connectors a).outBuf.content ≠ []) (hstep : step server s act = .ok t) :
    ¬ Flushed t.log := by
  obtain ⟨⟨answer, rfl⟩, ⟨k, hpc⟩, htarget⟩ := hcarries
  have hlog : ∃ holder, t.log =
      (s.log ++ [.took k d]) ++ .closedCB a k (scanReason d.buffer) holder :: [] := by
    simp only [step, netStep, hpc, handle, htarget, perform, hcmd] at hstep
    cases hstep
    exact ⟨_, rfl⟩
  obtain ⟨holder, hlog⟩ := hlog
  intro hflushed
  have hfor := (h.wf.isFor_of_target htarget).1
  refine (h.streams a).not_flushed (k := k) hcmd hfor hwaiting ?_
  have hclaim := hflushed _ _ _ _ _ _ hlog
  rwa [stream_append] at hclaim

/-- **A close never overtakes data**: in every run that carries small buffers out and closes
only connections with an empty output buffer, at each `ClosedConnectCB` the send commands for
the connection accepted before the close command have been taken, and their bytes, like those
of all commands taken for it, have been handed to the kernel. -/
theorem close_never_overtakes (server : Server) (maxSize : Nat) (now : Int)
    (connectors : Connectors) (as : List Action) (t : NetThread)
    (hsmall : Along (step server) SmallBuffers (init server maxSize now connectors) as)
    (hempty : Along (step server) NothingWaiting (init server maxSize now connectors) as)
    (hrun : run (step server) (init server maxSize now connectors) as = .ok t) :
    Flushed t.log := by
  have hinv : t.OutputOk ∧ Flushed t.log :=
    run_invariant (I := fun s => s.OutputOk ∧ Flushed s.log)
      (fun s act u hs hP h => ⟨step_outputOk hs.1 hP.1 h, step_flushed hs.1 hs.2 hP.2 h⟩)
      ⟨outputOk_init server maxSize now connectors, .nil⟩ (hsmall.and hempty) hrun
  exact hinv.2

set_option maxRecDepth 20000 in
/-- A handler sends one byte and closes; the kernel takes the byte. -/
theorem close_never_overtakes_taken :
    ∃ t, run (step soleServer) (init soleServer ThreadQueue.defaultMaxSize 0 blankConnectors)
      (sendThenClose ++ carryOut (.took 1)) = .ok t ∧ Flushed t.log := by
  refine ⟨_, rfl, close_never_overtakes soleServer ThreadQueue.defaultMaxSize 0 blankConnectors
    (sendThenClose ++ carryOut (.took 1)) _ (.append ?_ rfl ?_) (.append ?_ rfl ?_) rfl⟩
  · exact along_sendThenClose fun s act hact d a h => absurd h (not_carriesOut_of_act hact)
  · refine .cons_ok (fun d a h => absurd h (not_carriesOut_of_pc rfl)) rfl (.cons_ok ?_ rfl
      (.cons_ok (fun d a h => absurd h (not_carriesOut_of_pc rfl)) rfl (.cons_ok ?_ rfl trivial)))
    · rintro d a ⟨-, ⟨k, hpc⟩, -⟩ -
      cases hpc
      decide
    · rintro d a ⟨-, ⟨k, hpc⟩, -⟩ hcmd
      cases hpc
      cases hcmd
  · exact along_sendThenClose fun s act hact d a h => absurd h (not_carriesOut_of_act hact)
  · refine .cons_ok (fun d a h => absurd h (not_carriesOut_of_pc rfl)) rfl (.cons_ok ?_ rfl
      (.cons_ok (fun d a h => absurd h (not_carriesOut_of_pc rfl)) rfl (.cons_ok ?_ rfl trivial)))
    · rintro d a ⟨-, ⟨k, hpc⟩, -⟩ hcmd
      cases hpc
      cases hcmd
    · rintro d a ⟨-, ⟨k, hpc⟩, htarget⟩ -
      cases hpc
      have hzero : (.ok (some 0) : Except Fault (Option ConnectorPtr)) = .ok (some a) := htarget
      cases hzero
      rfl

set_option maxRecDepth 20000 in
/-- One byte, a kernel that is not ready, and a close command: the byte is never handed out. -/
theorem close_overtakes :
    ¬ ∀ (server : Server) (maxSize : Nat) (now : Int) (connectors : Connectors) (as : List Action)
      (t : NetThread), run (step server) (init server maxSize now connectors) as = .ok t →
      Flushed t.log := by
  intro hclaim
  have hflushed := hclaim soleServer ThreadQueue.defaultMaxSize 0 blankConnectors
    (sendThenClose ++ carryOut (.failed .eagain)) _ rfl
    [.added 0 1 (ascii "1.2.3.4") 80, .accepted 0 ⟨.send, 1, [120], ascii "1.2.3.4", 80⟩,
      .accepted 1 ⟨.close, 1, CloseConnectorReason.serverClosed.text, ascii "1.2.3.4", 80⟩,
      .took 0 ⟨.send, 1, [120], ascii "1.2.3.4", 80⟩, .output 0 (some []),
      .took 1 ⟨.close, 1, CloseConnectorReason.serverClosed.text, ascii "1.2.3.4", 80⟩]
    [] 0 1 2 (some 0) rfl
  exact absurd hflushed.2 (by decide)

end NetThread

end Sails.Net
