import Sails.Net.NetThread.Simulation

/-!
# The connections a net thread has accepted

- `step_sameAcceptor`: nobody but the acceptor moves it on
- `step_made`: a step makes a connector exactly when `accept_socket` gets a descriptor, and then
  one with that descriptor, the peer's address and an id that no listed connection has
- `step_kept`: no connector made changes its id, its peer's address or its descriptor
-/

namespace Sails.Net

open TransitionRun (Fault)
open CMemory
open Sails.Base

namespace NetThread

variable {server : Server} {act : Action} {s t : NetThread} {a : ConnectorPtr}

/-! ## Steps that make no connector -/

/-- No connector is made, and the acceptor stands where it stood. -/
structure SameAcceptor (s t : NetThread) : Prop where
  next : t.nextConnector = s.nextConnector
  acceptor : t.acceptor = s.acceptor

/-- The action is the acceptor's. -/
def Action.byAcceptor : Action → Bool
  | .accept .. | .addConnector _ | .register _ => true
  | _ => false

/-- The acceptor stands where it stood after every step but its own. -/
theorem step_sameAcceptor (hact : act.byAcceptor = false) (h : step server s act = .ok t) :
    SameAcceptor s t := by
  cases step_moves h with
  | accepted | added | registered | unregistered => cases hact
  | pushed hk hpush => exact ⟨hpush.sameTable.next, hpush.sameTable.acceptor⟩
  | requested hpc hpush => exact ⟨hpush.sameTable.next, hpush.sameTable.acceptor⟩
  | _ => exact ⟨rfl, rfl⟩

/-- The descriptor and the peer's address of the connection that an action accepts. -/
def Action.accepts : Action → Option (Int × Bytes × UInt16)
  | .accept connfd ip port .. => some (connfd, ip, port)
  | _ => none

/-- No connector is made, and none gets a number. -/
structure SameMade (s t : NetThread) : Prop where
  next : t.nextConnector = s.nextConnector
  numbered : ∀ a, t.acceptor = .numbered a → s.acceptor = .numbered a

theorem SameMade.refl (s : NetThread) : SameMade s s := ⟨rfl, fun _ h => h⟩

theorem step_sameMade (hact : act.accepts = none) (h : step server s act = .ok t) :
    SameMade s t := by
  by_cases hby : act.byAcceptor = false
  · have hsame := step_sameAcceptor hby h
    exact ⟨hsame.next, fun _ hnum => hsame.acceptor.symm.trans hnum⟩
  · cases step_moves h with
    | idle => exact .refl s
    | accepted => cases hact
    | added | registered | unregistered => exact ⟨rfl, fun _ hnum => Acceptor.noConfusion hnum⟩
    | _ => exact absurd rfl hby

/-! ## A connection is accepted -/

/-- A connector is made: it has the accepted descriptor and address, and an id that no listed
connection has. -/
structure Made (s t : NetThread) (connfd : Int) (ip : Bytes) (port : UInt16) : Prop where
  next : t.nextConnector = s.nextConnector + 1
  numbered : t.acceptor = .numbered s.nextConnector
  idle : s.acceptor = .idle
  log : t.log = s.log
  fd : (t.connectors s.nextConnector).connectFd = connfd
  ip : (t.connectors s.nextConnector).ip = ip
  port : (t.connectors s.nextConnector).port = port
  uid : ∃ list, s.connectorList.getUniqId = .ok ((t.connectors s.nextConnector).id, list)
  fresh : ∀ b, s.isListed b = true →
    (t.connectors s.nextConnector).id ≠ (s.connectors b).id

/-- **What is made**: a step makes no connector, or it accepts a connection and makes one. -/
theorem step_made (hwf : s.Wf) (h : step server s act = .ok t) :
    SameMade s t ∨ ∃ connfd ip port, act.accepts = some (connfd, ip, port) ∧ 0 < connfd ∧
      ownsFd server connfd = true ∧ s.Made t connfd ip port := by
  cases hact : act.accepts with
  | none => exact .inl (step_sameMade hact h)
  | some address =>
    cases step_moves h with
    | idle => exact .inl (.refl s)
    | @accepted connfd ip port _ _ _ _ uid list hidle hfd howns hfree huid =>
      cases hact
      refine .inr ⟨connfd, ip, port, rfl, hfd, howns, ?_⟩
      obtain ⟨added, hcons⟩ := hwf.consistent
      obtain ⟨-, -, hfirst, hcons'⟩ := ConnectorList.getUniqId_ok hcons huid
      have hself : ∀ c : Connector, s.connectors.set s.nextConnector c s.nextConnector = c :=
        fun c => Connectors.set_self ..
      refine
        { next := rfl, numbered := rfl, idle := hidle, log := rfl, fd := ?_, ip := ?_,
          port := ?_, uid := ⟨list, ?_⟩, fresh := ?_ }
      · exact congrArg Connector.connectFd (hself _)
      · exact congrArg Connector.ip (hself _)
      · exact congrArg Connector.port (hself _)
      · simp only [huid, setConnector, Connectors.set_self]
      -- the slot of the new id is reserved, so nothing is in it
      · intro b hlisted hid
        have hnew : slotOf (s.connectors b).id = slotOf uid := by
          rw [← hid]
          exact congrArg (fun c => slotOf c.id) (hself _)
        have hempty := hcons'.first_reserved (List.mem_cons_self ..)
        rw [hfirst, ← hnew, isListed_iff.mp hlisted] at hempty
        cases hempty
    | _ => cases hact

/-- **What is kept**: no connector made changes its id, its peer's address or its descriptor. -/
theorem step_kept (hwf : s.Wf) (h : step server s act = .ok t) (ha : a < s.nextConnector) :
    a < t.nextConnector ∧ (t.connectors a).ident = (s.connectors a).ident ∧
      (t.connectors a).connectFd = (s.connectors a).connectFd := by
  obtain ⟨events, hsim⟩ := step_simulates hwf h
  have hpeer : s.abs.peer a = some (s.connectors a).peer := if_pos ha
  obtain ⟨q, hq, hident, hfd⟩ := hsim.step.same_peer hpeer
  have hlt : a < t.nextConnector := by
    by_contra hge
    have hnone : t.abs.peer a = none := if_neg hge
    rw [hnone] at hq
    cases hq
  have hq' : t.abs.peer a = some (t.connectors a).peer := if_pos hlt
  cases hq'.symm.trans hq
  exact ⟨hlt, hident, hfd⟩

/-- The connector is in the list or about to be added. -/
def Seated (s : NetThread) (a : ConnectorPtr) : Prop :=
  s.isListed a = true ∨ s.acceptor = .numbered a

/-- A connector that was made before and is seated now was seated before. -/
theorem step_seated (hwf : s.Wf) (h : step server s act = .ok t) (ha : a < s.nextConnector)
    (hseated : t.Seated a) : s.Seated a := by
  obtain ⟨events, hsim⟩ := step_simulates hwf h
  rcases hsim.step.seated hseated with hs | hnone
  · exact hs
  · have hpeer : s.abs.peer a = some (s.connectors a).peer := if_pos ha
    rw [hpeer] at hnone
    cases hnone

/-- A listed connector was made. -/
theorem Wf.made_of_seated (hwf : s.Wf) (h : s.Seated a) : a < s.nextConnector := by
  rcases h with hlisted | hnumbered
  · exact (hwf.ids _ a (isListed_iff.mp hlisted)).1
  · exact (hwf.numbered a hnumbered).1

end NetThread

end Sails.Net
