import Sails.Net.NetThread.Steps

/-!
# A net thread waiting for itself

`close_connector` retries until the send list has room, and the net thread that would make
room calls it too: from `read_data` when a peer closes, and from the timeout callback.

- `WaitsForItself`: the net thread is in the retry loop on its own full list
- `waits_forever`: it never leaves such a state, whatever the other threads do
- `never_waits_for_itself`: without a test of the full list there is no such state
- `waits_for_itself_reachable`: at every capacity there is a run into such a state
-/

namespace Sails.Net

open TransitionRun (Fault run Along run_invariant run_invariant' run_append run_cons_ok)
open CMemory
open Sails.Base

namespace NetThread

variable {server : Server} {s t : NetThread}

/-- The net thread sleeps in `close_connector` because its own list is full. -/
def WaitsForItself (s : NetThread) : Prop :=
  ∃ d rest, s.pc = .requesting ⟨d, .retrying⟩ rest ∧ s.sendlist.isFull = true

/-- If the net thread is about to test its own list in `close_connector`, the list has room. -/
def RoomForOwn (s : NetThread) : Action → Prop
  | .net _ => ∀ d rest, s.pc = .requesting ⟨d, .testing⟩ rest → s.sendlist.isFull = false
  | _ => True

/-- The net thread is not asleep in `close_connector`. -/
def Awake (s : NetThread) : Prop := ∀ d rest, s.pc ≠ .requesting ⟨d, .retrying⟩ rest

/-! ## No step but a failed test puts the net thread to sleep -/

theorem resume_ne (rest rest' : Option (List (MultimapEntry Int Nat))) (p : Pushing) :
    resume rest ≠ .requesting p rest' := by
  cases rest <;> simp [resume]

@[simp] theorem pc_emit (s : NetThread) (events : List NetEvent) : (s.emit events).pc = s.pc := rfl

@[simp] theorem pc_setConnector (s : NetThread) (conn : ConnectorPtr) (c : Connector) :
    (s.setConnector conn c).pc = s.pc := rfl

/-- A close request of the net thread's own begins with the test. -/
theorem AfterRequest.awake {c : Connector} {reason : CloseConnectorReason}
    {rest : Option (List (MultimapEntry Int Nat))} {pc : NetPc} (h : AfterRequest c reason rest pc)
    (d : SendData) (rest' : Option (List (MultimapEntry Int Nat))) :
    pc ≠ .requesting ⟨d, .retrying⟩ rest' := by
  cases h with
  | resumed => exact resume_ne rest rest' _
  | requesting hcmd => simp

theorem awake_of_pc (h : t.pc = s.pc) (hs : s.Awake) : t.Awake := by
  intro d rest
  rw [h]
  exact hs d rest

/-- **Step**: with room at its own tests the net thread stays awake. -/
theorem step_awake {a : Action} (hs : s.Awake) (hroom : s.RoomForOwn a)
    (h : step server s a = .ok t) : t.Awake := by
  cases step_moves h with
  | idle | waits => exact hs
  | begun | accepted | added | registered | unregistered | readOn => exact awake_of_pc rfl hs
  | pushed hk hpush => exact awake_of_pc hpush.pc_eq hs
  | readEnded hpc hget hloop hafter => exact hafter.awake
  | timedOut hpc hfirst hlisten hafter => exact hafter.awake
  | @requested _ p rest u next hpc hpush =>
    -- inside its own call
    obtain ⟨d, phase⟩ := p
    intro d' rest'
    cases hpush with
    | refused hphase hfull =>
      cases hphase
      rw [hroom d rest hpc] at hfull
      cases hfull
    | woken hphase =>
      cases hphase
      exact absurd hpc (hs d rest)
    | passed | inserted => simp [afterPush]
    | notified => exact resume_ne rest rest' _
  | _ =>
    intro d rest
    simp

/-- **A net thread never waits for itself**, in every state of every run in which its own
tests find the list with room. -/
theorem never_waits_for_itself (server : Server) (maxSize : Nat) (now : Int)
    (connectors : Connectors) (as : List Action) (t : NetThread)
    (hroom : Along (step server) RoomForOwn (init server maxSize now connectors) as)
    (hrun : run (step server) (init server maxSize now connectors) as = .ok t) :
    ¬ t.WaitsForItself := by
  have hawake : t.Awake := run_invariant (fun s a u hs hP h => step_awake hs hP h)
    (by intro d rest h; cases h) hroom hrun
  rintro ⟨d, rest, hpc, -⟩
  exact hawake d rest hpc

/-- A connection times out while the list has room: its close request goes in. -/
theorem never_waits_for_itself_timeout :
    ∃ t, run (step soleServer) (init soleServer ThreadQueue.defaultMaxSize 0 blankConnectors)
      (opening ++ [.tick 20, .net (.took 0), .net (.took 0), .net (.took 0)]) = .ok t ∧
      ¬ t.WaitsForItself := by
  refine ⟨_, rfl, never_waits_for_itself soleServer ThreadQueue.defaultMaxSize 0 blankConnectors
    (opening ++ [.tick 20, .net (.took 0), .net (.took 0), .net (.took 0)]) _ ?_ rfl⟩
  refine .cons_ok trivial rfl (.cons_ok trivial rfl (.cons_ok trivial rfl ?_))
  refine .cons_ok trivial rfl (.cons_ok (fun _ _ _ => rfl) rfl ?_)
  exact .cons_ok (fun _ _ _ => rfl) rfl (.cons_ok (fun _ _ _ => rfl) rfl trivial)

/-! ## What waiting for itself means -/

/-- The net thread is between two tests of its own full list, in a close request. -/
def Stuck (s : NetThread) : Prop :=
  ∃ d phase rest, s.pc = .requesting ⟨d, phase⟩ rest ∧ d.cmd = .close ∧
    (phase = .testing ∨ phase = .retrying) ∧ s.sendlist.isFull = true

theorem stuck_of_same (hpc : t.pc = s.pc) (hlist : t.sendlist = s.sendlist) (hs : s.Stuck) :
    t.Stuck := by
  obtain ⟨d, phase, rest, h, hrest⟩ := hs
  exact ⟨d, phase, rest, hpc.trans h, by rw [hlist]; exact hrest⟩

/-- A thread that puts a command in leaves a full list full. -/
theorem Pushes.stuck {p : Pushing} {next : Option Pushing} (h : Pushes s p t next) (hs : s.Stuck) :
    t.Stuck := by
  cases h with
  | inserted =>
    obtain ⟨d, phase, rest, hpc, hcmd, hphase, hfull⟩ := hs
    refine ⟨d, phase, rest, hpc, hcmd, hphase, ?_⟩
    simp only [ThreadQueue.isFull, decide_eq_true_eq] at hfull ⊢
    exact Nat.le_succ_of_le hfull
  | _ => exact stuck_of_same (s := s) rfl rfl hs

/-- No step of any thread frees a stuck net thread. -/
theorem step_stuck {a : Action} (hs : s.Stuck) (h : step server s a = .ok t) : t.Stuck := by
  obtain ⟨d, phase, rest, hpc, hcmd, hphase, hfull⟩ := id hs
  cases step_moves h with
  | idle => exact hs
  | begun | accepted | added | registered | unregistered =>
    exact stuck_of_same (s := s) rfl rfl hs
  | pushed hk hpush => exact stuck_of_same (s := _) rfl rfl (hpush.stuck hs)
  | @requested _ p rest' u next hpc' hpush =>
    cases hpc.symm.trans hpc'
    -- the test fails again, or comes next
    cases hpush with
    | refused =>
      refine ⟨d, .retrying, rest, ?_, hcmd, .inr rfl, hfull⟩
      simp only [afterPush, hcmd, if_true]
    | woken => exact ⟨d, .testing, rest, rfl, hcmd, .inl rfl, hfull⟩
    | passed _ hroom =>
      rw [hfull] at hroom
      cases hroom
    | inserted hinserting | notified hnotifying =>
      rcases hphase with rfl | rfl
      · contradiction
      · contradiction
  -- in every other step the net thread is somewhere else
  | _ => cases hpc.symm.trans ‹_›

/-- A net thread that waits for itself waits forever, and nothing more is taken off its list. -/
theorem waits_forever {as : List Action} (hs : s.Stuck)
    (hrun : run (step server) s as = .ok t) : t.Stuck :=
  run_invariant' (fun _ _ _ hI h => step_stuck hI h) hs hrun

/-! ## A run into the wait -/

/-- A producer can fill the list. -/
theorem fill (server : Server) {k : Nat} (call : Call) {d : SendData}
    (hcmd : call.command = some d) (n : Nat) (hidle : s.producers k = none)
    (hroom : s.sendlist.size + n ≤ s.sendlist.maxSize) :
    ∃ as t, run (step server) s as = .ok t ∧ t.pc = s.pc ∧ t.connectorList = s.connectorList ∧
      t.connectors = s.connectors ∧ t.sendlist.size = s.sendlist.size + n ∧
      t.sendlist.maxSize = s.sendlist.maxSize := by
  induction n generalizing s with
  | zero => exact ⟨[], s, rfl, rfl, rfl, rfl, rfl, rfl⟩
  | succ n ih =>
    have hfree : s.sendlist.isFull = false := by
      simp only [ThreadQueue.isFull, decide_eq_false_iff_not]
      omega
    obtain ⟨u, hrun, hpc, hlist, hconns, hidle', hsend, -, -, -⟩ :=
      call_accepted server hcmd hidle hfree
    have hsize : u.sendlist.size = s.sendlist.size + 1 := by rw [hsend]; rfl
    have hmax : u.sendlist.maxSize = s.sendlist.maxSize := by rw [hsend]; rfl
    obtain ⟨as, t, hrun', hpc', hlist', hconns', hsize', hmax'⟩ := ih hidle' (by omega)
    exact ⟨_, t, (run_append hrun).trans hrun', hpc'.trans hpc, hlist'.trans hlist,
      hconns'.trans hconns, by omega, hmax'.trans hmax⟩

/-- A peer closes its connection while the list is full. -/
theorem waits_after_eof (server : Server) (conn : ConnectorPtr) (uid : UInt32) {d : SendData}
    (hpc : s.pc = .waiting) (hget : s.connectorList.get uid = .ok (some conn))
    (hfull : s.sendlist.isFull = true) (hopen : (s.connectors conn).isClosed = false)
    (howns : ownsFd server (s.connectors conn).connectFd = true)
    (hcmd : (Call.closeConnector (s.connectors conn).ip (s.connectors conn).port
      (s.connectors conn).id (s.connectors conn).connectFd .clientClosed).command = some d)
    (hclose : d.cmd = .close) :
    ∃ t, run (step server) s [.readEvent uid [.got [] (Nat.zero_le _)] 0, .net (.took 0)] = .ok t ∧
      t.WaitsForItself := by
  -- the read returns 0, with or without asking the kernel
  obtain ⟨c, hread, hip, hport, hid, hfd, hclosed⟩ : ∃ c,
      (s.connectors conn).read (.got [] (Nat.zero_le _)) = .ok (c, 0) ∧
      c.ip = (s.connectors conn).ip ∧ c.port = (s.connectors conn).port ∧
      c.id = (s.connectors conn).id ∧ c.connectFd = (s.connectors conn).connectFd ∧
      c.isClosed = (s.connectors conn).isClosed := by
    unfold Connector.read
    split
    · obtain ⟨b, hb, -⟩ := (s.connectors conn).inBuf.read_spec Connector.readBytes
        (.got [] (Nat.zero_le _))
      rw [hb]
      exact ⟨_, rfl, rfl, rfl, rfl, rfl, rfl⟩
    · exact ⟨_, rfl, rfl, rfl, rfl, rfl, rfl⟩
  have hloop : readLoop server conn (s.connectors conn) 0 [] [.got [] (Nat.zero_le _)] =
      .ok (some (c, [.read conn], true)) := by
    simp [readLoop, hread]
  rw [← hip, ← hport, ← hid, ← hfd] at hcmd
  rw [← hfd] at howns
  simp only [run, step, hpc, readData, hget, hloop, readEnd, if_true, setConnector, emit,
    Connectors.set_self, hclosed, hopen, Bool.false_eq_true, if_false, requestClose, howns, hcmd,
    netStep, pushStep, hfull, hclose]
  exact ⟨_, rfl, d, none, rfl, hfull⟩

/-- With the capacity of the source: one connection, a list filled by `send`, an end of file. -/
theorem waits_for_itself_reachable :
    ¬ ∀ (server : Server) (maxSize : Nat) (now : Int) (connectors : Connectors) (as : List Action)
      (t : NetThread), run (step server) (init server maxSize now connectors) as = .ok t →
      ¬ t.WaitsForItself := by
  intro hclaim
  obtain ⟨s, hopen, hpc, hlist, hidle, hget, hconn⟩ : ∃ s : NetThread,
      run (step soleServer) (init soleServer ThreadQueue.defaultMaxSize 0 blankConnectors) opening =
        .ok s ∧ s.pc = .waiting ∧ s.sendlist = ThreadQueue.init ThreadQueue.defaultMaxSize ∧
      s.producers 0 = none ∧ s.connectorList.get 1 = .ok (some 0) ∧
      s.connectors 0 = { Connector.ofFd 7 0 10 (.zero 8) with
        id := 1, ip := ascii "1.2.3.4", port := 80, listenFd := 3, timeoutCB := true,
        owner := true } := by
    refine ⟨_, rfl, ?_⟩
    exact ⟨rfl, rfl, rfl, rfl, rfl⟩
  obtain ⟨as, u, hfill, hpc', hlist', hconns', hsize, hmax⟩ := fill soleServer
    (.send (ascii "1.2.3.4") 80 1 [120]) rfl ThreadQueue.defaultMaxSize hidle
    (by rw [hlist]; simp [ThreadQueue.init])
  have hfull : u.sendlist.isFull = true := by
    simp only [ThreadQueue.isFull, decide_eq_true_eq, hsize, hmax, hlist, ThreadQueue.init]
    exact Nat.le_add_left ..
  have hconn' : u.connectors 0 = { Connector.ofFd 7 0 10 (.zero 8) with
      id := 1, ip := ascii "1.2.3.4", port := 80, listenFd := 3, timeoutCB := true,
      owner := true } := by
    rw [hconns', hconn]
  obtain ⟨t, heof, hwaits⟩ := waits_after_eof soleServer 0 1
    (d := ⟨.close, 1, CloseConnectorReason.clientClosed.text, ascii "1.2.3.4", 80⟩)
    (hpc'.trans hpc) (by rw [hlist', hget]) hfull (by rw [hconn']; rfl) (by rw [hconn']; rfl)
    (by rw [hconn']; rfl) rfl
  exact hclaim soleServer _ 0 _ (opening ++ (as ++ _)) t
    ((run_append hopen).trans ((run_append hfill).trans heof)) hwaits

end NetThread

end Sails.Net
