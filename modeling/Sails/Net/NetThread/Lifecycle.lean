import Sails.Net.NetThread.Simulation
import Sails.Net.Connections.Life

/-!
# The life cycle of a connection

- `connection_life_cycle`: what the log says around a `ClosedConnectCB`, in every run that
  closes only connections whose `add_connector` is over
-/

namespace Sails.Net

open TransitionRun CMemory Connections
open Sails.Base

namespace NetThread

variable {server : Server} {act : Action} {s t : NetThread}

/-- No close command is carried out on a connection whose `add_connector` is not over. -/
def ClosesRegistered (s : NetThread) (act : Action) : Prop :=
  ∀ d a, s.CarriesOut act d a → d.cmd = .close → s.acceptor ≠ .added a

/-- The state, its abstract state and the lives of the connections agree. -/
structure LivesOk (s : NetThread) : Prop where
  wf : s.Wf
  lives : ∀ a, s.abs.LifeOk a s.log

theorem livesOk_init (server : Server) (maxSize : Nat) (now : Int) (connectors : Connectors) :
    (init server maxSize now connectors).LivesOk where
  wf := wf_init server maxSize now connectors
  lives := by
    intro a
    rw [abs_init]
    exact .empty a

/-- **Step**: the lives of the connections keep agreeing with the state. -/
theorem step_livesOk (h : s.LivesOk) (hregistered : s.ClosesRegistered act)
    (hstep : step server s act = .ok t) : t.LivesOk := by
  obtain ⟨events, hsim⟩ := step_simulates h.wf hstep
  refine ⟨hsim.wf, ?_⟩
  intro a
  rw [hsim.log]
  refine LifeOk.step h.lives ?_ hsim.step a
  intro b k reason holder hmem
  obtain ⟨d, hcarries, hcmd⟩ := hsim.closed b k reason holder hmem
  exact hregistered d b hcarries hcmd

/-- A connection that is being closed reaches the next stage with the net thread's next step. -/
theorem closeStep_ok (h : s.LivesOk) {stage : CloseStage} {a : ConnectorPtr} {uid : UInt32}
    (hpc : s.pc = .closing stage a uid) : ∃ t, s.closeStep a uid stage = .ok t := by
  cases stage with
  | eventStop => exact ⟨_, rfl⟩
  | close => exact ⟨_, rfl⟩
  | release => exact ⟨_, rfl⟩
  | del =>
    -- the slot still holds the connection, so `del` finds it
    have hclosing : s.abs.closing = some (.del, a) := by
      change closingStage s.pc = _
      rw [hpc]
      rfl
    obtain ⟨p, -, hlife⟩ := (h.lives a).closing _ hclosing
    have hlisted : s.isListed a = true := congrArg Prod.snd hlife
    have hfirst := isListed_iff.mp hlisted
    have hid := (h.wf.closing _ _ _ hpc).id
    rw [← hid] at hfirst
    have hmagic := (h.wf.ids _ a hfirst).2.2
    rw [← hid] at hmagic
    obtain ⟨added, hcons⟩ := h.wf.consistent
    have hadded := (hcons.occupied _).mp (Option.isSome_of_eq_some hfirst)
    obtain ⟨list, hdel, -⟩ := ConnectorList.del_spec hmagic
      (hcons.perm (List.Perm.refl _) (List.perm_cons_erase hadded))
    simp only [closeStep, hdel]
    exact ⟨_, rfl⟩

/-- What holds of a connection around its `ClosedConnectCB`, in state `t` with the log split
there. -/
structure ClosedInOrder (server : Server) (t : NetThread) (a : ConnectorPtr)
    (holder : Option ConnectorPtr) (before after : List NetEvent) : Prop where
  /-- its slot held it -/
  held : holder = some a
  /-- it had not been called back, taken out of the event loop, closed or removed -/
  first : ∀ e ∈ before, e.conn = some a → e.ends = false
  /-- since then it was taken out of the event loop, closed and removed, as far as the net
  thread has come, and nothing else happened to it -/
  inOrder : (after.filter fun e => e.conn = some a) <+:
    [.eventStop a (t.connectors a).connectFd, .closeFd a (t.connectors a).connectFd, .removed a]
  /-- all three have happened, unless the net thread is still at it -/
  complete : (∀ stage uid, t.pc ≠ .closing stage a uid) →
    (after.filter fun e => e.conn = some a) =
      [.eventStop a (t.connectors a).connectFd, .closeFd a (t.connectors a).connectFd, .removed a]
  /-- and then its next step does not fail -/
  goesOn : ∀ stage uid, t.pc = .closing stage a uid → ∀ answer, ∃ u, netStep server t answer = .ok u
  /-- once it is removed no command finds it -/
  noEffect : .removed a ∈ t.log → ∀ d, t.target d ≠ .ok (some a)

/-- **Life cycle**: in every run that closes only connections whose `add_connector` is over,
each `ClosedConnectCB` is the first of its connection, and the calls behind it come once and in
order, with nothing else between or after them. -/
theorem connection_life_cycle (server : Server) (maxSize : Nat) (now : Int)
    (connectors : Connectors) (as : List Action) (t : NetThread)
    (hregistered : Along (step server) ClosesRegistered (init server maxSize now connectors) as)
    (hrun : run (step server) (init server maxSize now connectors) as = .ok t)
    (before after : List NetEvent) (a : ConnectorPtr) (k reason : Nat)
    (holder : Option ConnectorPtr)
    (hlog : t.log = before ++ .closedCB a k reason holder :: after) :
    ClosedInOrder server t a holder before after := by
  have hok : t.LivesOk := run_invariant (fun s act u hs hP h => step_livesOk hs hP h)
    (livesOk_init server maxSize now connectors) hregistered hrun
  have hlife := hok.lives a
  -- a connection with an event has been made
  have hpeer : t.abs.peer a = some (t.connectors a).peer := by
    cases hnone : t.abs.peer a with
    | none =>
      have hno := (hlife.fresh (.inl hnone)).1 (.closedCB a k reason holder) (by simp [hlog])
      exact absurd rfl hno
    | some p =>
      change (if a < t.nextConnector then some (t.connectors a).peer else none) = _ at hnone
      split at hnone
      · exact hnone.symm
      · cases hnone
  have hbroken := hlife.not_broken hpeer
  rw [hlog] at hbroken
  obtain ⟨hheld, hfirst, hclosing, horder⟩ := closed_in_order hbroken
  rw [← hlog] at hclosing horder
  refine
    { held := hheld
      first := hfirst
      inOrder := ⟨_, horder⟩
      complete := ?_
      goesOn := ?_
      noEffect := ?_ }
  · intro hpc
    have hnot : ¬ t.abs.IsClosing a := by
      rintro ⟨stage, hstage⟩
      obtain ⟨uid, hclosing⟩ := closing_of_abs hstage
      exact hpc stage uid hclosing
    -- a connection that was closed and is not being closed any more is gone
    have hgone : (life a (t.connectors a).peer.fd t.log).toCome a (t.connectors a).peer.fd = [] := by
      cases hlisted : t.abs.listed a with
      | true =>
        obtain ⟨p, hp, hlive⟩ := hlife.listed hnot hlisted
        cases hpeer.symm.trans hp
        rw [hlive]
        rfl
      | false => rcases hlife.away hnot hlisted _ hpeer with hl | hl | hl | hl <;> rw [hl] <;> rfl
    rw [hgone, List.append_nil] at horder
    exact horder
  · intro stage uid hpc answer
    obtain ⟨u, hu⟩ := closeStep_ok hok hpc
    refine ⟨u, ?_⟩
    simp only [netStep, hpc]
    exact hu
  · intro hremoved d htarget
    exact hlife.not_removed (hok.wf.isFor_of_target htarget).1.1 hremoved

/-- A handler has a new connection closed. -/
def closeOne : List Action :=
  [.call 0 (.closeConnector (ascii "1.2.3.4") 80 1 7 .serverClosed), .push 0, .push 0, .push 0,
    .notified, .net (.took 0), .net (.took 0), .net (.took 0), .net (.took 0), .net (.took 0)]

set_option maxRecDepth 20000 in
/-- One connection, accepted and closed. -/
theorem connection_life_cycle_close :
    ∃ t, run (step soleServer) (init soleServer ThreadQueue.defaultMaxSize 0 blankConnectors)
      (opening ++ closeOne) = .ok t ∧
      ClosedInOrder soleServer t 0 (some 0)
        [.added 0 1 (ascii "1.2.3.4") 80,
          .accepted 0 ⟨.close, 1, CloseConnectorReason.serverClosed.text, ascii "1.2.3.4", 80⟩,
          .took 0 ⟨.close, 1, CloseConnectorReason.serverClosed.text, ascii "1.2.3.4", 80⟩]
        [.eventStop 0 7, .closeFd 0 7, .removed 0] := by
  have hquiet : ∀ act ∈ opening, ∀ answer, act ≠ .net answer := by simp [opening]
  refine ⟨_, rfl, connection_life_cycle soleServer ThreadQueue.defaultMaxSize 0 blankConnectors
    (opening ++ closeOne) _ (.append ?_ rfl ?_) rfl _ _ 0 0 2 (some 0) rfl⟩
  · exact (along_of_forall hquiet).mono fun s act hact d a h => absurd h (not_carriesOut_of_act hact)
  -- the acceptor is done with the connection from here on
  · have hidle : ∀ {s : NetThread} {act : Action}, s.acceptor = .idle → s.ClosesRegistered act := by
      intro s act hidle d a _ _ hadded
      rw [hidle] at hadded
      cases hadded
    refine .cons_ok (hidle rfl) rfl (.cons_ok (hidle rfl) rfl (.cons_ok (hidle rfl) rfl ?_))
    refine .cons_ok (hidle rfl) rfl (.cons_ok (hidle rfl) rfl (.cons_ok (hidle rfl) rfl ?_))
    refine .cons_ok (hidle rfl) rfl (.cons_ok (hidle rfl) rfl (.cons_ok (hidle rfl) rfl ?_))
    exact .cons_ok (hidle rfl) rfl trivial

end NetThread

end Sails.Net
