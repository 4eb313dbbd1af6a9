import Sails.Net.ConnectorSlots
import Sails.Net.Connections
import Sails.Net.NetThread.Steps

/-!
# The net thread does what an abstract net thread does

- `NetThread.abs`: the abstract state of a net thread
- `NetThread.Wf`: the invariant under which the two correspond: the connector list is
  consistent, each slot holds the connector whose id names it, and listed connectors are open
- `step_simulates`: each step of the net thread or of a thread beside it is a step of the
  abstract net thread with the same events
-/

namespace Sails.Net

open TransitionRun (Fault)
open CMemory
open Sails.Base

/-! ## Connectors as peers -/

namespace Connector

/-- What a connector is addressed by. -/
def ident (c : Connector) : Ident := ⟨c.id, c.ip, c.port⟩

/-- A connector as its peer and the kernel know it. -/
def peer (c : Connector) : Peer := ⟨c.ident, c.connectFd, c.isClosed, c.outBuf.content⟩

variable {c c' : Connector}

theorem isOpen_of_peer (h : c'.peer = c.peer) : c'.isOpen = c.isOpen := by
  have hfd : c'.connectFd = c.connectFd := congrArg Peer.fd h
  have hclosed : c'.isClosed = c.isClosed := congrArg Peer.isClosed h
  -- `isOpen` looks at the descriptor and the flag, and the peer has both
  rw [isOpen, isOpen, hfd, hclosed]

theorem id_of_peer (h : c'.peer = c.peer) : c'.id = c.id :=
  congrArg (fun p => p.ident.uid) h

theorem isClosed_of_isOpen (h : c.isOpen = true) : c.isClosed = false := by
  simp only [isOpen, Bool.and_eq_true, Bool.not_eq_true'] at h
  exact h.1

/-- Reading changes the input buffer only. -/
theorem peer_read {answer : ReadAnswer readBytes} {n : Int} (h : c.read answer = .ok (c', n)) :
    c'.peer = c.peer := by
  unfold read at h
  split at h
  · split at h
    · cases h
    · cases h; rfl
  · cases h; rfl

/-- `write` and `send` on an open connector: what was waiting and what came are what was
handed out and what waits now. -/
theorem write_send {buffer : Bytes} (answer : WriteAnswer) (hopen : c.isOpen = true)
    (h : c.write buffer (toInt32 buffer.length) = .ok c') :
    ∃ outgoing, (c'.send answer).1.peer = { c.peer with outgoing := outgoing } ∧
      c.outBuf.content ++ Connections.narrow buffer =
        (c'.send answer).2.getD [] ++ outgoing := by
  -- `write` leaves what is not handed out yet behind what was waiting
  have hwrite : ∃ b, c' = { c with outBuf := b } ∧
      b.content = c.outBuf.content ++ Connections.narrow buffer := by
    unfold write at h
    split at h
    · obtain ⟨b, hok, hcontent⟩ :=
        c.outBuf.append_spec (buffer.take (toInt32 buffer.length).toNat)
      rw [hok] at h
      cases h
      exact ⟨b, rfl, hcontent⟩
    -- a length that is not positive as an `int` appends nothing
    · rename_i hpos
      cases h
      refine ⟨c.outBuf, rfl, ?_⟩
      rw [Connections.narrow, Int.toNat_of_nonpos (Int.not_lt.mp hpos), List.take_zero,
        List.append_nil]
  obtain ⟨b, rfl, hcontent⟩ := hwrite
  have hsame : ({ c with outBuf := b } : Connector).isOpen = true := hopen
  -- then `send` hands out a prefix, unless the kernel refuses
  refine ⟨(({ c with outBuf := b } : Connector).send answer).1.outBuf.content, ?_, ?_⟩
  · unfold send
    rw [if_pos hsame]
    split <;> rfl
  · rw [← hcontent]
    cases htaken : (({ c with outBuf := b } : Connector).send answer).2 with
    | none => rw [send_none hsame htaken]; rfl
    | some taken => exact send_some htaken

end Connector

namespace NetThread

variable {server : Server} {act : Action} {s t : NetThread} {events : List NetEvent}

/-! ## The abstract state -/

/-- The command taken off the list and not yet carried out. -/
def inHand : NetPc → List (Nat × SendData)
  | .handling serial d => [(serial, d)]
  | _ => []

/-- The connection that is being closed. -/
def closingStage : NetPc → Option (CloseStage × ConnectorPtr)
  | .closing stage conn _ => some (stage, conn)
  | _ => none

/-- The connector is in the list. -/
def isListed (s : NetThread) (a : ConnectorPtr) : Bool :=
  decide (s.connectorList.first (slotOf (s.connectors a).id) = some a)

/-- The abstract state of a net thread. -/
def abs (s : NetThread) : Connections where
  peer a := if a < s.nextConnector then some (s.connectors a).peer else none
  listed := s.isListed
  pending := inHand s.pc ++ s.sendlist.queue
  acceptedNum := s.acceptedNum
  closing := closingStage s.pc
  adding := s.acceptor

/-- The net thread is closing what its abstract state is closing. -/
theorem closing_of_abs {a : ConnectorPtr} {stage : CloseStage}
    (h : s.abs.closing = some (stage, a)) : ∃ uid, s.pc = .closing stage a uid := by
  change closingStage s.pc = _ at h
  cases hpc : s.pc with
  | closing stage' b uid =>
    rw [hpc] at h
    cases h
    exact ⟨uid, rfl⟩
  | _ =>
    rw [hpc] at h
    cases h

/-- The slots of the ids handed out and not added. -/
def reservedSlots (s : NetThread) : List Nat :=
  match s.acceptor with
  | .numbered a => [slotOf (s.connectors a).id]
  | _ => []

/-! ## The invariant -/

/-- What is known of a connection while it is being closed, on behalf of a command for `uid`. -/
structure ClosingOk (s : NetThread) (stage : CloseStage) (a : ConnectorPtr) (uid : UInt32) : Prop where
  made : a < s.nextConnector
  id : uid = (s.connectors a).id
  not_numbered : s.acceptor ≠ .numbered a
  isOpen : stage = .eventStop ∨ stage = .close → (s.connectors a).isOpen = true
  isClosed : stage = .del ∨ stage = .release → (s.connectors a).isClosed = true

theorem ClosingOk.slot {stage : CloseStage} {a : ConnectorPtr} {uid : UInt32}
    (h : ClosingOk s stage a uid) : slotOf uid = slotOf (s.connectors a).id := by rw [h.id]

/-- The connector list of a net thread is in order. -/
structure Wf (s : NetThread) : Prop where
  consistent : ∃ added, s.connectorList.Consistent s.reservedSlots added
  ids : ∀ slot a, s.connectorList.first slot = some a → a < s.nextConnector ∧
    slotOf (s.connectors a).id = slot ∧
    magicOf (s.connectors a).id = s.connectorList.iConnectionMagic
  numbered : ∀ a, s.acceptor = .numbered a → a < s.nextConnector ∧
    magicOf (s.connectors a).id = s.connectorList.iConnectionMagic ∧
    (s.connectors a).isOpen = true ∧ (∀ slot, s.connectorList.first slot ≠ some a)
  added : ∀ a, s.acceptor = .added a → a < s.nextConnector
  isOpen : ∀ slot a, s.connectorList.first slot = some a →
    (s.connectors a).isOpen = true ∨ ∃ uid, s.pc = .closing .del a uid
  closing : ∀ stage a uid, s.pc = .closing stage a uid → ClosingOk s stage a uid

theorem isListed_iff {a : ConnectorPtr} :
    s.isListed a = true ↔ s.connectorList.first (slotOf (s.connectors a).id) = some a :=
  decide_eq_true_iff

/-- What a slot holds is listed. -/
theorem Wf.listed_of_first (h : s.Wf) {slot : Nat} {a : ConnectorPtr}
    (hfirst : s.connectorList.first slot = some a) : s.isListed a = true := by
  rw [isListed_iff, (h.ids slot a hfirst).2.1]
  exact hfirst

theorem Wf.peer_of_first (h : s.Wf) {slot : Nat} {a : ConnectorPtr}
    (hfirst : s.connectorList.first slot = some a) :
    s.abs.peer a = some (s.connectors a).peer :=
  if_pos (h.ids slot a hfirst).1

theorem Wf.peer_of_closing (h : s.Wf) {stage : CloseStage} {a : ConnectorPtr} {uid : UInt32}
    (hpc : s.pc = .closing stage a uid) : s.abs.peer a = some (s.connectors a).peer :=
  if_pos (h.closing stage a uid hpc).made

/-- The command's connection in the code is its connection in the abstract state. -/
theorem Wf.isFor_of_target (h : s.Wf) {d : SendData} {a : ConnectorPtr}
    (htarget : s.target d = .ok (some a)) :
    s.abs.IsFor d a (s.connectors a).peer ∧
      s.connectorList.first (slotOf d.uid) = some a ∧ (s.connectors a).id = d.uid := by
  unfold target at htarget
  split at htarget
  · cases htarget
  · cases htarget
  · rename_i conn hget
    split at htarget
    · rename_i haddress
      cases htarget
      -- slot and magic of the command's id are those of the connector, so the ids are one
      obtain ⟨hmagic, hfirst⟩ := ConnectorList.get_eq_some.mp hget
      obtain ⟨-, hslot, hmagic'⟩ := h.ids _ a hfirst
      have hid : (s.connectors a).id = d.uid := uid_ext (hmagic'.trans hmagic.symm) hslot
      refine ⟨⟨h.listed_of_first hfirst, h.peer_of_first hfirst, ?_⟩, hfirst, hid⟩
      simp only [Connector.peer, Connector.ident, SendData.ident, hid, haddress.1, haddress.2]
    · cases htarget

theorem Wf.target_of_isFor (h : s.Wf) {d : SendData} {a : ConnectorPtr} {p : Peer}
    (hfor : s.abs.IsFor d a p) : s.target d = .ok (some a) := by
  obtain ⟨hlisted, hpeer, hident⟩ := hfor
  have hfirst := isListed_iff.mp hlisted
  -- the peer of the abstract state is the one in the slot
  cases (h.peer_of_first hfirst).symm.trans hpeer
  have hid : (s.connectors a).id = d.uid := congrArg Ident.uid hident
  have hget : s.connectorList.get d.uid = .ok (some a) := by
    rw [ConnectorList.get_eq_some, ← hid]
    exact ⟨(h.ids _ a hfirst).2.2, hfirst⟩
  have hip : (s.connectors a).ip = d.ip := congrArg Ident.ip hident
  have hport : (s.connectors a).port = d.port := congrArg Ident.port hident
  simp only [target, hget, hip, hport, and_self, if_true]

/-! ## Steps that leave the table alone -/

/-- Slots, ids and peers are the same in both states. -/
structure SameTable (s t : NetThread) : Prop where
  first : ∀ slot, t.connectorList.first slot = s.connectorList.first slot
  magic : t.connectorList.iConnectionMagic = s.connectorList.iConnectionMagic
  peer : ∀ a, (t.connectors a).peer = (s.connectors a).peer
  next : t.nextConnector = s.nextConnector
  acceptor : t.acceptor = s.acceptor
  consistent : ∀ reserved added, s.connectorList.Consistent reserved added →
    t.connectorList.Consistent reserved added

theorem SameTable.of_eq (hlist : t.connectorList = s.connectorList)
    (hconns : t.connectors = s.connectors) (hnext : t.nextConnector = s.nextConnector)
    (hacceptor : t.acceptor = s.acceptor) : SameTable s t where
  first := fun _ => by rw [hlist]
  magic := by rw [hlist]
  peer := fun _ => by rw [hconns]
  next := hnext
  acceptor := hacceptor
  consistent := fun _ _ h => by rw [hlist]; exact h

theorem SameTable.trans {u : NetThread} (h : SameTable s t) (h' : SameTable t u) : SameTable s u where
  first := fun slot => (h'.first slot).trans (h.first slot)
  magic := h'.magic.trans h.magic
  peer := fun a => (h'.peer a).trans (h.peer a)
  next := h'.next.trans h.next
  acceptor := h'.acceptor.trans h.acceptor
  consistent := fun r a hc => h'.consistent r a (h.consistent r a hc)

/-- A connector is stored back with the same peer. -/
theorem sameTable_setConnector {a : ConnectorPtr} {c : Connector}
    (h : c.peer = (s.connectors a).peer) : SameTable s (s.setConnector a c) where
  first := fun _ => rfl
  magic := rfl
  peer := by
    intro b
    by_cases hba : b = a
    · subst hba
      change (s.connectors.set b c b).peer = _
      rw [Connectors.set_self, h]
    · change (s.connectors.set a c b).peer = _
      rw [Connectors.set_ne hba]
  next := rfl
  acceptor := rfl
  consistent := fun _ _ h => h

theorem SameTable.isListed (h : SameTable s t) (a : ConnectorPtr) : t.isListed a = s.isListed a := by
  rw [NetThread.isListed, NetThread.isListed, Connector.id_of_peer (h.peer a), h.first]

theorem SameTable.reservedSlots (h : SameTable s t) : t.reservedSlots = s.reservedSlots := by
  unfold NetThread.reservedSlots
  rw [h.acceptor]
  split
  · rename_i a _
    rw [Connector.id_of_peer (h.peer a)]
  · rfl

theorem SameTable.abs (h : SameTable s t) :
    t.abs = { s.abs with
      pending := inHand t.pc ++ t.sendlist.queue
      acceptedNum := t.acceptedNum
      closing := closingStage t.pc } := by
  have hpeer : t.abs.peer = s.abs.peer := by
    funext a
    change (if a < t.nextConnector then some (t.connectors a).peer else none) = _
    rw [h.next, h.peer a]
    rfl
  have hlisted : t.abs.listed = s.abs.listed := funext h.isListed
  have hadding : t.abs.adding = s.abs.adding := h.acceptor
  -- the other parts of the abstract state are read off `pc` and the send list
  change (⟨t.abs.peer, t.abs.listed, _, _, _, t.abs.adding⟩ : Connections) = _
  rw [hpeer, hlisted, hadding]

theorem Wf.of_same (hwf : s.Wf) (h : SameTable s t)
    (hdel : ∀ a uid, s.pc = .closing .del a uid → t.pc = .closing .del a uid)
    (hclosing : ∀ stage a uid, t.pc = .closing stage a uid → ClosingOk s stage a uid) : t.Wf := by
  -- id and state of a connector are parts of its peer, which is the same
  have hid : ∀ a, (t.connectors a).id = (s.connectors a).id := fun a =>
    Connector.id_of_peer (h.peer a)
  have hopen : ∀ a, (t.connectors a).isOpen = (s.connectors a).isOpen := fun a =>
    Connector.isOpen_of_peer (h.peer a)
  have hclosed : ∀ a, (t.connectors a).isClosed = (s.connectors a).isClosed := fun a =>
    congrArg Peer.isClosed (h.peer a)
  constructor
  case consistent =>
    obtain ⟨added, hcons⟩ := hwf.consistent
    rw [h.reservedSlots]
    exact ⟨added, h.consistent _ _ hcons⟩
  case ids =>
    intro slot a hfirst
    rw [hid, h.next, h.magic]
    exact hwf.ids slot a ((h.first slot).symm.trans hfirst)
  case numbered =>
    intro a ha
    rw [hid, hopen, h.next, h.magic]
    obtain ⟨hlt, hmagic, ho, hno⟩ := hwf.numbered a (h.acceptor.symm.trans ha)
    exact ⟨hlt, hmagic, ho, fun slot => by rw [h.first]; exact hno slot⟩
  case added =>
    intro a ha
    rw [h.next]
    exact hwf.added a (h.acceptor.symm.trans ha)
  case isOpen =>
    intro slot a hfirst
    rw [hopen]
    exact (hwf.isOpen slot a ((h.first slot).symm.trans hfirst)).imp_right
      fun ⟨uid, hpc⟩ => ⟨uid, hdel a uid hpc⟩
  case closing =>
    intro stage a uid hpc
    have hok := hclosing stage a uid hpc
    exact
      { made := by rw [h.next]; exact hok.made
        id := by rw [hid]; exact hok.id
        not_numbered := by rw [h.acceptor]; exact hok.not_numbered
        isOpen := by rw [hopen]; exact hok.isOpen
        isClosed := by rw [hclosed]; exact hok.isClosed }

/-! ## Steps that change one peer -/

/-- The connector at `a` is replaced by one with the same id. -/
structure Replaced (s t : NetThread) (a : ConnectorPtr) (c : Connector) : Prop where
  list : t.connectorList = s.connectorList
  connectors : t.connectors = s.connectors.set a c
  next : t.nextConnector = s.nextConnector
  acceptor : t.acceptor = s.acceptor
  id : c.id = (s.connectors a).id

theorem Replaced.id_eq {a : ConnectorPtr} {c : Connector} (h : Replaced s t a c) (b : ConnectorPtr) :
    (t.connectors b).id = (s.connectors b).id := by
  rw [h.connectors]
  by_cases hba : b = a
  · subst hba
    rw [Connectors.set_self, h.id]
  · rw [Connectors.set_ne hba]

theorem Replaced.reservedSlots {a : ConnectorPtr} {c : Connector} (h : Replaced s t a c) :
    t.reservedSlots = s.reservedSlots := by
  unfold NetThread.reservedSlots
  rw [h.acceptor]
  split
  · rw [h.id_eq]
  · rfl

theorem Replaced.abs {a : ConnectorPtr} {c : Connector} (h : Replaced s t a c)
    (hmade : a < s.nextConnector) :
    t.abs = ({ s.abs with
      pending := inHand t.pc ++ t.sendlist.queue
      acceptedNum := t.acceptedNum
      closing := closingStage t.pc }).setPeer a c.peer := by
  have hpeer : t.abs.peer = fun b => if b = a then some c.peer else s.abs.peer b := by
    funext b
    change (if b < t.nextConnector then some (t.connectors b).peer else none) = _
    rw [h.next, h.connectors]
    -- only the peer of `a` is another one, and `a` is made already
    by_cases hba : b = a
    · subst hba
      rw [Connectors.set_self, if_pos hmade, if_pos rfl]
    · rw [Connectors.set_ne hba, if_neg hba]
      rfl
  have hlisted : t.abs.listed = s.abs.listed := by
    funext b
    -- a connector is listed by its id, which stays
    change t.isListed b = s.isListed b
    rw [isListed, isListed, h.id_eq, h.list]
  have hadding : t.abs.adding = s.abs.adding := h.acceptor
  change (⟨t.abs.peer, t.abs.listed, _, _, _, t.abs.adding⟩ : Connections) = _
  rw [hpeer, hlisted, hadding]
  rfl

theorem Wf.of_replaced (hwf : s.Wf) {a : ConnectorPtr} {c : Connector} (h : Replaced s t a c)
    (hopen : c.isOpen = (s.connectors a).isOpen ∨
      (∃ uid, t.pc = .closing .del a uid) ∧ s.acceptor ≠ .numbered a)
    (hdel : ∀ b uid, s.pc ≠ .closing .del b uid)
    (hclosing : ∀ stage b uid, t.pc = .closing stage b uid → ClosingOk t stage b uid) : t.Wf := by
  -- the other connectors are untouched
  have hother : ∀ b, b ≠ a → (t.connectors b).isOpen = (s.connectors b).isOpen := by
    intro b hba
    rw [h.connectors, Connectors.set_ne hba]
  have hself : (t.connectors a).isOpen = c.isOpen := by
    rw [h.connectors, Connectors.set_self]
  constructor
  case consistent =>
    obtain ⟨added, hcons⟩ := hwf.consistent
    rw [h.reservedSlots, h.list]
    exact ⟨added, hcons⟩
  case ids =>
    intro slot b hfirst
    rw [h.id_eq, h.next, h.list]
    exact hwf.ids slot b (h.list ▸ hfirst)
  case numbered =>
    intro b hb
    have hb' : s.acceptor = .numbered b := h.acceptor.symm.trans hb
    obtain ⟨hlt, hmagic, ho, hno⟩ := hwf.numbered b hb'
    rw [h.id_eq, h.next, h.list]
    refine ⟨hlt, hmagic, ?_, hno⟩
    by_cases hba : b = a
    · subst hba
      -- the connector that is about to be added is not the one being closed
      rcases hopen with hsame | ⟨-, hnot⟩
      · rw [hself, hsame]
        exact ho
      · exact absurd hb' hnot
    · rw [hother b hba]
      exact ho
  case added =>
    intro b hb
    rw [h.next]
    exact hwf.added b (h.acceptor.symm.trans hb)
  case isOpen =>
    intro slot b hfirst
    -- nothing was between the close and the removal before
    have ho := (hwf.isOpen slot b (h.list ▸ hfirst)).resolve_right
      fun ⟨uid, hpc⟩ => hdel b uid hpc
    by_cases hba : b = a
    · subst hba
      rcases hopen with hsame | ⟨hclosed, -⟩
      · left
        rw [hself, hsame]
        exact ho
      · exact .inr hclosed
    · left
      rw [hother b hba]
      exact ho
  case closing =>
    exact hclosing

/-! ## Steps that make and list a connector -/

/-- No slot holds the connector that is made next. -/
theorem Wf.first_ne_next (hwf : s.Wf) (slot : Nat) :
    s.connectorList.first slot ≠ some s.nextConnector := by
  intro hslot
  exact absurd (hwf.ids slot _ hslot).1 (Nat.lt_irrefl _)

/-- The next connector is made, with an id whose slot is reserved. -/
structure Created (s t : NetThread) (c : Connector) : Prop where
  first : ∀ slot, t.connectorList.first slot = s.connectorList.first slot
  magic : t.connectorList.iConnectionMagic = s.connectorList.iConnectionMagic
  connectors : t.connectors = s.connectors.set s.nextConnector c
  next : t.nextConnector = s.nextConnector + 1
  acceptor : t.acceptor = .numbered s.nextConnector
  consistent : ∃ added, t.connectorList.Consistent [slotOf c.id] added

theorem Created.new {c : Connector} (h : Created s t c) : t.connectors s.nextConnector = c := by
  rw [h.connectors, Connectors.set_self]

theorem Created.old {c : Connector} (h : Created s t c) {a : ConnectorPtr}
    (hne : a ≠ s.nextConnector) : t.connectors a = s.connectors a := by
  rw [h.connectors, Connectors.set_ne hne]

theorem Created.abs {c : Connector} (h : Created s t c) (hwf : s.Wf) :
    t.abs = ({ s.abs with
      pending := inHand t.pc ++ t.sendlist.queue
      acceptedNum := t.acceptedNum
      closing := closingStage t.pc
      adding := .numbered s.nextConnector }).setPeer s.nextConnector c.peer := by
  have hpeer : t.abs.peer = fun a => if a = s.nextConnector then some c.peer else s.abs.peer a := by
    funext a
    change (if a < t.nextConnector then some (t.connectors a).peer else none) = _
    rw [h.next]
    by_cases ha : a = s.nextConnector
    · subst ha
      rw [if_pos rfl, if_pos (Nat.lt_succ_self _), h.new]
    -- an older connector is not the one made now
    · have hiff : a < s.nextConnector + 1 ↔ a < s.nextConnector :=
        ⟨fun hlt => Nat.lt_of_le_of_ne (Nat.le_of_lt_succ hlt) ha, Nat.lt_succ_of_lt⟩
      rw [if_neg ha, h.old ha]
      simp only [hiff]
      rfl
  have hlisted : t.abs.listed = s.abs.listed := by
    funext a
    change t.isListed a = s.isListed a
    rw [isListed, isListed, h.first]
    by_cases ha : a = s.nextConnector
    · subst ha
      -- the new connector is in no slot before it is added
      rw [decide_eq_false (hwf.first_ne_next _), decide_eq_false (hwf.first_ne_next _)]
    · rw [h.old ha]
  have hadding : t.abs.adding = .numbered s.nextConnector := h.acceptor
  change (⟨t.abs.peer, t.abs.listed, _, _, _, t.abs.adding⟩ : Connections) = _
  rw [hpeer, hlisted, hadding]
  rfl

theorem Wf.of_created (hwf : s.Wf) {c : Connector} (h : Created s t c)
    (hmagic : magicOf c.id = s.connectorList.iConnectionMagic) (hopen : c.isOpen = true)
    (hpc : t.pc = s.pc) : t.Wf := by
  -- what a slot holds was made before
  have hold : ∀ slot a, t.connectorList.first slot = some a →
      s.connectorList.first slot = some a ∧ t.connectors a = s.connectors a := by
    intro slot a hslot
    have hslot' := (h.first slot).symm.trans hslot
    refine ⟨hslot', h.old fun ha => ?_⟩
    subst ha
    exact hwf.first_ne_next slot hslot'
  constructor
  case consistent =>
    obtain ⟨added, hcons⟩ := h.consistent
    refine ⟨added, ?_⟩
    rw [reservedSlots, h.acceptor]
    change t.connectorList.Consistent [slotOf (t.connectors s.nextConnector).id] added
    rw [h.new]
    exact hcons
  case ids =>
    intro slot a hslot
    obtain ⟨hslot', hsame⟩ := hold slot a hslot
    obtain ⟨hlt, hs, hm⟩ := hwf.ids slot a hslot'
    rw [hsame, h.next, h.magic]
    exact ⟨Nat.lt_succ_of_lt hlt, hs, hm⟩
  case numbered =>
    intro a ha
    cases h.acceptor.symm.trans ha
    rw [h.new, h.next, h.magic]
    exact ⟨Nat.lt_succ_self _, hmagic, hopen, fun slot hslot =>
      hwf.first_ne_next slot ((h.first slot).symm.trans hslot)⟩
  case added =>
    intro a ha
    cases h.acceptor.symm.trans ha
  case isOpen =>
    intro slot a hslot
    obtain ⟨hslot', hsame⟩ := hold slot a hslot
    rw [hsame, hpc]
    exact hwf.isOpen slot a hslot'
  case closing =>
    intro stage a uid ha
    have hok := hwf.closing stage a uid (hpc.symm.trans ha)
    have hne : a ≠ s.nextConnector := Nat.ne_of_lt hok.made
    exact
      { made := by rw [h.next]; exact Nat.lt_succ_of_lt hok.made
        id := by rw [h.old hne]; exact hok.id
        not_numbered := by
          rw [h.acceptor]
          exact fun hnum => hne (Acceptor.numbered.inj hnum).symm
        isOpen := by rw [h.old hne]; exact hok.isOpen
        isClosed := by rw [h.old hne]; exact hok.isClosed }

/-- The connector whose slot is reserved goes into it. -/
structure Enlisted (s t : NetThread) (conn : ConnectorPtr) : Prop where
  first : ∀ slot, t.connectorList.first slot =
    if slotOf (s.connectors conn).id = slot then some conn else s.connectorList.first slot
  magic : t.connectorList.iConnectionMagic = s.connectorList.iConnectionMagic
  peer : ∀ a, (t.connectors a).peer = (s.connectors a).peer
  next : t.nextConnector = s.nextConnector
  acceptor : t.acceptor = .added conn
  consistent : ∃ added, t.connectorList.Consistent [] added

theorem Enlisted.abs {conn : ConnectorPtr} (h : Enlisted s t conn)
    (hempty : s.connectorList.first (slotOf (s.connectors conn).id) = none) :
    t.abs = ({ s.abs with
      pending := inHand t.pc ++ t.sendlist.queue
      acceptedNum := t.acceptedNum
      closing := closingStage t.pc
      adding := .added conn }).setListed conn true := by
  have hpeer : t.abs.peer = s.abs.peer := by
    funext a
    change (if a < t.nextConnector then some (t.connectors a).peer else none) = _
    rw [h.next, h.peer a]
    rfl
  have hlisted : t.abs.listed = fun a => if a = conn then true else s.abs.listed a := by
    funext a
    change t.isListed a = if a = conn then true else s.isListed a
    rw [isListed, isListed, Connector.id_of_peer (h.peer a), h.first]
    by_cases ha : a = conn
    · subst ha
      rw [if_pos rfl, if_pos rfl, decide_eq_true rfl]
    · rw [if_neg ha]
      -- a connector of the same slot is not listed: the slot was empty
      by_cases hs : slotOf (s.connectors conn).id = slotOf (s.connectors a).id
      · rw [if_pos hs, ← hs, hempty]
        simp [Ne.symm ha]
      · rw [if_neg hs]
  have hadding : t.abs.adding = .added conn := h.acceptor
  change (⟨t.abs.peer, t.abs.listed, _, _, _, t.abs.adding⟩ : Connections) = _
  rw [hpeer, hlisted, hadding]
  rfl

theorem Wf.of_enlisted (hwf : s.Wf) {conn : ConnectorPtr} (h : Enlisted s t conn)
    (hadding : s.acceptor = .numbered conn) (hpc : t.pc = s.pc) : t.Wf := by
  obtain ⟨hmade, hmagic, hopen, -⟩ := hwf.numbered conn hadding
  have hid : ∀ a, (t.connectors a).id = (s.connectors a).id := fun a =>
    Connector.id_of_peer (h.peer a)
  have hisOpen : ∀ a, (t.connectors a).isOpen = (s.connectors a).isOpen := fun a =>
    Connector.isOpen_of_peer (h.peer a)
  have hclosed : ∀ a, (t.connectors a).isClosed = (s.connectors a).isClosed := fun a =>
    congrArg Peer.isClosed (h.peer a)
  -- what a slot holds now is the new connector or what it held before
  have hfirst : ∀ slot a, t.connectorList.first slot = some a →
      a = conn ∧ slot = slotOf (s.connectors conn).id ∨ s.connectorList.first slot = some a := by
    intro slot a hslot
    rw [h.first] at hslot
    split at hslot
    · rename_i heq
      exact .inl ⟨(Option.some.inj hslot).symm, heq.symm⟩
    · exact .inr hslot
  constructor
  case consistent =>
    rw [reservedSlots, h.acceptor]
    exact h.consistent
  case ids =>
    intro slot a hslot
    rw [hid, h.next, h.magic]
    rcases hfirst slot a hslot with ⟨rfl, rfl⟩ | hold
    · exact ⟨hmade, rfl, hmagic⟩
    · exact hwf.ids slot a hold
  case numbered =>
    intro a ha
    cases h.acceptor.symm.trans ha
  case added =>
    intro a ha
    cases h.acceptor.symm.trans ha
    rw [h.next]
    exact hmade
  case isOpen =>
    intro slot a hslot
    rw [hisOpen, hpc]
    rcases hfirst slot a hslot with ⟨rfl, rfl⟩ | hold
    · exact .inl hopen
    · exact hwf.isOpen slot a hold
  case closing =>
    intro stage a uid ha
    have hok := hwf.closing stage a uid (hpc.symm.trans ha)
    exact
      { made := by rw [h.next]; exact hok.made
        id := by rw [hid]; exact hok.id
        not_numbered := by
          rw [h.acceptor]
          exact Acceptor.noConfusion
        isOpen := by rw [hisOpen]; exact hok.isOpen
        isClosed := by rw [hclosed]; exact hok.isClosed }

/-! ## One step -/

/-- The events that come with a command carried out on a connection. -/
def performs : NetEvent → Bool
  | .output .. | .closedCB .. => true
  | _ => false

/-- With this action the net thread carries the command in its hand out on connection `a`. -/
def CarriesOut (s : NetThread) (act : Action) (d : SendData) (a : ConnectorPtr) : Prop :=
  (∃ answer, act = .net answer) ∧ (∃ k, s.pc = .handling k d) ∧ s.target d = .ok (some a)

theorem not_carriesOut_of_act {d : SendData} {a : ConnectorPtr} (h : ∀ answer, act ≠ .net answer) :
    ¬ s.CarriesOut act d a := by
  rintro ⟨⟨answer, hact⟩, -⟩
  exact h answer hact

theorem not_carriesOut_of_pc {d : SendData} {a : ConnectorPtr} (h : inHand s.pc = []) :
    ¬ s.CarriesOut act d a := by
  rintro ⟨-, ⟨k, hpc⟩, -⟩
  rw [hpc] at h
  cases h

/-- A step of the net thread is an abstract step with the same events. -/
structure Simulated (act : Action) (s t : NetThread) (events : List NetEvent) : Prop where
  log : t.log = s.log ++ events
  step : Connections.Step s.abs events t.abs
  wf : t.Wf
  output : ∀ k d b bytes, .took k d ∈ events → .output b bytes ∈ events →
    s.CarriesOut act d b ∧ d.cmd = .send
  closed : ∀ b k reason holder, .closedCB b k reason holder ∈ events →
    ∃ d, s.CarriesOut act d b ∧ d.cmd = .close

theorem Simulated.of_plain (hlog : t.log = s.log ++ events)
    (hstep : Connections.Step s.abs events t.abs) (hwf : t.Wf)
    (hplain : ∀ e ∈ events, performs e = false) : Simulated act s t events where
  log := hlog
  step := hstep
  wf := hwf
  output := fun _ _ _ _ _ hmem => nomatch hplain _ hmem
  closed := fun _ _ _ _ hmem => nomatch hplain _ hmem

/-- The net thread is neither closing a connection nor holding a command. -/
def Aside (s : NetThread) : Prop := inHand s.pc = [] ∧ closingStage s.pc = none

theorem not_closing_of_aside (h : s.Aside) (stage : CloseStage) (a : ConnectorPtr) (uid : UInt32) :
    s.pc ≠ .closing stage a uid := by
  intro hpc
  have hnone := h.2
  rw [hpc] at hnone
  cases hnone

/-- The net thread stays where it is, or stays aside. -/
def KeepsPlace (s t : NetThread) : Prop := t.pc = s.pc ∨ s.Aside ∧ t.Aside

theorem KeepsPlace.inHand (h : KeepsPlace s t) : NetThread.inHand t.pc = NetThread.inHand s.pc := by
  rcases h with hpc | ⟨hs, ht⟩
  · rw [hpc]
  · rw [hs.1, ht.1]

theorem KeepsPlace.closingStage (h : KeepsPlace s t) :
    NetThread.closingStage t.pc = NetThread.closingStage s.pc := by
  rcases h with hpc | ⟨hs, ht⟩
  · rw [hpc]
  · rw [hs.2, ht.2]

theorem Wf.of_keepsPlace (hwf : s.Wf) (h : SameTable s t) (hplace : KeepsPlace s t) : t.Wf := by
  rcases hplace with hpc | ⟨hs, ht⟩
  · refine hwf.of_same h (fun a uid hdel => hpc.trans hdel) ?_
    intro stage a uid hclosing
    exact hwf.closing stage a uid (hpc.symm.trans hclosing)
  · refine hwf.of_same h (fun a uid hdel => absurd hdel (not_closing_of_aside hs _ a uid)) ?_
    intro stage a uid hclosing
    exact absurd hclosing (not_closing_of_aside ht stage a uid)

/-- A step that no connection notices. -/
theorem simulated_idle (hwf : s.Wf) (h : SameTable s t) (hplace : KeepsPlace s t)
    (hlog : t.log = s.log) (hlist : t.sendlist = s.sendlist) (hnum : t.acceptedNum = s.acceptedNum) :
    Simulated act s t [] := by
  refine .of_plain (by rw [hlog, List.append_nil]) ?_ (hwf.of_keepsPlace h hplace) (by simp)
  have habs : t.abs = s.abs := by
    rw [h.abs, hplace.inHand, hplace.closingStage, hlist, hnum]
    rfl
  rw [habs]
  exact .idle

theorem Pushes.sameTable {p : Pushing} {next : Option Pushing} (h : Pushes s p t next) :
    SameTable s t := by
  cases h with
  | _ => exact .of_eq rfl rfl rfl rfl

/-- A step inside `push_back`, made by any thread. -/
theorem simulated_push (hwf : s.Wf) {p : Pushing} {u : NetThread} {next : Option Pushing}
    (hpush : Pushes s p u next) (h : SameTable u t) (hplace : KeepsPlace s t)
    (hlog : t.log = u.log) (hlist : t.sendlist = u.sendlist)
    (hnum : t.acceptedNum = u.acceptedNum) : ∃ events, Simulated act s t events := by
  have htable : SameTable s t := hpush.sameTable.trans h
  cases hpush with
  | inserted =>
    refine ⟨[.accepted s.acceptedNum p.data], .of_plain hlog ?_ (hwf.of_keepsPlace htable hplace) ?_⟩
    · rw [htable.abs, hplace.inHand, hplace.closingStage, hlist, hnum]
      have haccepted := Connections.Step.accepted (c := s.abs) (d := p.data)
      simp only [abs, List.append_assoc] at haccepted ⊢
      exact haccepted
    · intro e he
      rw [List.mem_singleton] at he
      subst he
      rfl
  | _ => exact ⟨[], simulated_idle hwf htable hplace hlog hlist hnum⟩

/-! ## `read_data` and the close requests -/

/-- A step in which bytes come in on a connection. -/
theorem simulated_input (hwf : s.Wf) (h : SameTable s t) (hs : s.Aside) (ht : t.Aside) {slot : Nat}
    {conn : ConnectorPtr} (hfirst : s.connectorList.first slot = some conn)
    (hevents : ∀ e ∈ events, e = .read conn ∨ e = .parsed conn) (hlog : t.log = s.log ++ events)
    (hlist : t.sendlist = s.sendlist) (hnum : t.acceptedNum = s.acceptedNum) :
    Simulated act s t events := by
  have hplace : KeepsPlace s t := .inr ⟨hs, ht⟩
  have habs : t.abs = s.abs := by
    rw [h.abs, hplace.inHand, hplace.closingStage, hlist, hnum]
    rfl
  refine .of_plain hlog ?_ (hwf.of_keepsPlace h hplace) ?_
  · rw [habs]
    exact .input (hwf.listed_of_first hfirst) hs.2 hevents
  · intro e he
    rcases hevents e he with rfl | rfl <;> rfl

theorem aside_resume (rest : Option (List (MultimapEntry Int Nat))) (s : NetThread) :
    Aside { s with pc := resume rest } := by
  cases rest <;> exact ⟨rfl, rfl⟩

theorem AfterRequest.aside {c : Connector} {reason : CloseConnectorReason}
    {rest : Option (List (MultimapEntry Int Nat))} {pc : NetPc} (h : AfterRequest c reason rest pc)
    (s : NetThread) : Aside { s with pc := pc } := by
  cases h with
  | resumed => exact aside_resume rest s
  | requesting hcmd => exact ⟨rfl, rfl⟩

theorem aside_of_pc {pc : NetPc} (hpc : s.pc = pc)
    (h : NetThread.inHand pc = [] ∧ NetThread.closingStage pc = none) : s.Aside := by
  rw [Aside, hpc]
  exact h

theorem peer_parse (server : Server) (c : Connector) : (parse server c).peer = c.peer := rfl

/-- The reading loop reads and parses its connection only. -/
theorem readLoop_ok {conn : ConnectorPtr} {c c' : Connector} {total : Int}
    {events events' : List NetEvent} {answers : List (ReadAnswer Connector.readBytes)} {err : Bool}
    (h : readLoop server conn c total events answers = .ok (some (c', events', err)))
    (hevents : ∀ e ∈ events, e = .read conn ∨ e = .parsed conn) :
    c'.peer = c.peer ∧ ∀ e ∈ events', e = .read conn ∨ e = .parsed conn := by
  -- by induction on the answers: each round adds a read, and perhaps a parse, to the events
  induction answers generalizing c total events with
  | nil => cases h
  | cons answer answers ih =>
    simp only [readLoop] at h
    split at h
    · cases h
    · rename_i c₁ n hread
      have hpeer := Connector.peer_read hread
      have hevents₁ : ∀ e ∈ events ++ [.read conn], e = .read conn ∨ e = .parsed conn := by
        intro e he
        rcases List.mem_append.mp he with he | he
        · exact hevents e he
        · exact .inl (List.mem_singleton.mp he)
      split at h
      -- the read was interrupted and is made again
      · obtain ⟨hpeer', hevents'⟩ := ih h hevents₁
        exact ⟨hpeer'.trans hpeer, hevents'⟩
      · split at h
        -- some bytes came; perhaps they are parsed at once
        · generalize decide (4096 ≤ (total + n).bmod (2 ^ 32)) = full at h
          have hpeer₂ : (if full = true then parse server c₁ else c₁).peer = c.peer := by
            split
            · exact hpeer
            · exact hpeer
          have hevents₂ : ∀ e ∈ (if full = true then events ++ [.read conn] ++ [.parsed conn]
              else events ++ [.read conn]), e = .read conn ∨ e = .parsed conn := by
            intro e he
            split at he
            · rcases List.mem_append.mp he with he | he
              · exact hevents₁ e he
              · exact .inr (List.mem_singleton.mp he)
            · exact hevents₁ e he
          split at h
          · cases h
            exact ⟨hpeer₂, hevents₂⟩
          -- the buffer was filled, so there may be more to read
          · obtain ⟨hpeer', hevents'⟩ := ih h hevents₂
            exact ⟨hpeer'.trans hpeer₂, hevents'⟩
        · split at h
          · cases h
            exact ⟨hpeer, hevents₁⟩
          · cases h
            exact ⟨hpeer, hevents₁⟩

/-- Reading has failed or come to the end. -/
theorem simulated_readEnded (hwf : s.Wf) (hpc : s.pc = .waiting) {uid : UInt32}
    {answers : List (ReadAnswer Connector.readBytes)} {conn : ConnectorPtr} {c : Connector}
    {pc : NetPc} (hget : s.connectorList.get uid = .ok (some conn))
    (hloop : readLoop server conn (s.connectors conn) 0 [] answers = .ok (some (c, events, true)))
    (hafter : AfterRequest c .clientClosed none pc) :
    Simulated act s { (s.setConnector conn c).emit events with pc := pc } events := by
  obtain ⟨hpeer, hevents⟩ := readLoop_ok hloop (by simp)
  have htable : SameTable s { (s.setConnector conn c).emit events with pc := pc } :=
    (sameTable_setConnector hpeer).trans (.of_eq rfl rfl rfl rfl)
  exact simulated_input hwf htable (aside_of_pc hpc ⟨rfl, rfl⟩) (hafter.aside _)
    (ConnectorList.get_eq_some.mp hget).2 hevents rfl rfl rfl

/-- `refresh` changes the list, and the time of the last refresh, which no peer knows of. -/
theorem sameTable_refresh (hwf : s.Wf) {connectors connectors' : Connectors} {uid : UInt32}
    {expiry : Int} {list : ConnectorList} (hpeers : ∀ a, (connectors a).peer = (s.connectors a).peer)
    (hrefresh : s.connectorList.refresh connectors uid expiry = .ok (list, connectors')) :
    SameTable s { s with connectorList := list, connectors := connectors' } := by
  obtain ⟨added, hcons⟩ := hwf.consistent
  obtain ⟨hmagic, hfirst, -, hconns⟩ := ConnectorList.refresh_ok hcons hrefresh
  -- `refresh` only moves the entry and stores where it is now
  have hsame : ∀ a, (connectors' a).peer = (connectors a).peer := by
    intro a
    rcases hconns with rfl | ⟨b, rfl⟩
    · rfl
    · by_cases hab : a = b
      · subst hab
        rw [Connectors.set_self]
        rfl
      · rw [Connectors.set_ne hab]
  exact
    { first := hfirst
      magic := hmagic
      peer := fun a => (hsame a).trans (hpeers a)
      next := rfl
      acceptor := rfl
      consistent := fun reserved added' hc => (ConnectorList.refresh_ok hc hrefresh).2.2.1 }

/-- Bytes have come in and are parsed. -/
theorem simulated_readOn (hwf : s.Wf) (hpc : s.pc = .waiting) {uid : UInt32}
    {answers : List (ReadAnswer Connector.readBytes)} {now : Int} {conn : ConnectorPtr}
    {c : Connector} {list : ConnectorList} {connectors : Connectors}
    (hget : s.connectorList.get uid = .ok (some conn))
    (hloop : readLoop server conn (s.connectors conn) 0 [] answers = .ok (some (c, events, false)))
    (hrefresh : s.connectorList.refresh (s.connectors.set conn c) c.id (c.timeout + now) =
      .ok (list, connectors)) :
    Simulated act s (({ (s.setConnector conn c).emit events with
      connectorList := list
      connectors := connectors }.setConnector conn (parse server (connectors conn))).emit
        [.parsed conn]) (events ++ [.parsed conn]) := by
  obtain ⟨hpeer, hevents⟩ := readLoop_ok hloop (by simp)
  have hset : SameTable s (s.setConnector conn c) := sameTable_setConnector hpeer
  have hrefreshed : SameTable s { s with connectorList := list, connectors := connectors } :=
    sameTable_refresh hwf hset.peer hrefresh
  -- reading, refreshing and parsing leave slots, ids and peers alone
  have htable := hrefreshed.trans
    (sameTable_setConnector (a := conn) (peer_parse server (connectors conn)))
  have hs : s.Aside := aside_of_pc hpc ⟨rfl, rfl⟩
  refine simulated_input hwf (htable.trans (.of_eq rfl rfl rfl rfl)) hs hs
    (ConnectorList.get_eq_some.mp hget).2 ?_ (List.append_assoc ..) rfl rfl
  intro e he
  rcases List.mem_append.mp he with he | he
  · exact hevents e he
  · exact .inr (List.mem_singleton.mp he)

/-! ## `read_pipe_cb` -/

/-- The next command is in the net thread's hand. -/
theorem abs_handling {k : Nat} {d : SendData} (hpc : s.pc = .handling k d) :
    s.abs.pending = (k, d) :: s.sendlist.queue ∧ s.abs.closing = none := by
  constructor
  · change inHand s.pc ++ s.sendlist.queue = _
    rw [hpc]
    rfl
  · change closingStage s.pc = none
    rw [hpc]
    rfl

theorem not_closing_of_handling {k : Nat} {d : SendData} (hpc : s.pc = .handling k d)
    (stage : CloseStage) (a : ConnectorPtr) (uid : UInt32) : s.pc ≠ .closing stage a uid := by
  rw [hpc]
  exact NetPc.noConfusion

/-- In every case but the closing of a connection the thread goes back to the loop. -/
theorem Wf.of_handled (hwf : s.Wf) {k : Nat} {d : SendData} (hpc : s.pc = .handling k d)
    (h : SameTable s t) (hdraining : t.pc = .draining) (hlist : t.sendlist = s.sendlist)
    (hnum : t.acceptedNum = s.acceptedNum) :
    t.abs = { s.abs with pending := s.sendlist.queue } ∧ t.Wf := by
  constructor
  · rw [h.abs, hdraining, hlist, hnum]
    change (⟨s.abs.peer, s.abs.listed, s.sendlist.queue, s.acceptedNum, none, s.abs.adding⟩ :
      Connections) = ⟨_, _, _, _, s.abs.closing, _⟩
    rw [(abs_handling hpc).2]
    rfl
  · refine hwf.of_same h (fun a uid hdel => absurd hdel (not_closing_of_handling hpc _ a uid)) ?_
    intro stage b uid hclosing
    rw [hdraining] at hclosing
    cases hclosing

theorem simulated_sent (hwf : s.Wf) {k : Nat} {d : SendData} {answer : WriteAnswer}
    {conn : ConnectorPtr} {c : Connector} (hpc : s.pc = .handling k d)
    (htarget : s.target d = .ok (some conn)) (hcmd : d.cmd = .send)
    (hwrite : (s.connectors conn).write d.buffer (toInt32 d.buffer.length) = .ok c) :
    Simulated (.net answer) s (({ s.emit [.took k d] with pc := .draining }.setConnector conn
      (c.send answer).1).emit [.output conn (c.send answer).2])
        [.took k d, .output conn (c.send answer).2] := by
  obtain ⟨hpending, hnone⟩ := abs_handling hpc
  obtain ⟨hfor, hfirst, -⟩ := hwf.isFor_of_target htarget
  have hopen : (s.connectors conn).isOpen = true :=
    (hwf.isOpen _ conn hfirst).resolve_right fun ⟨uid, hclosing⟩ =>
      not_closing_of_handling hpc _ conn uid hclosing
  obtain ⟨outgoing, hpeer, hbytes⟩ := Connector.write_send answer hopen hwrite
  -- `send` closes nothing
  have hopen' : (c.send answer).1.isOpen = (s.connectors conn).isOpen := by
    have hfd : (c.send answer).1.connectFd = (s.connectors conn).connectFd :=
      congrArg Peer.fd hpeer
    have hclosed : (c.send answer).1.isClosed = (s.connectors conn).isClosed :=
      congrArg Peer.isClosed hpeer
    rw [Connector.isOpen, Connector.isOpen, hfd, hclosed]
  have hreplaced : Replaced s
      (({ s.emit [.took k d] with pc := .draining }.setConnector conn (c.send answer).1).emit
        [.output conn (c.send answer).2]) conn (c.send answer).1 :=
    { list := rfl
      connectors := rfl
      next := rfl
      acceptor := rfl
      id := congrArg (fun p => p.ident.uid) hpeer }
  refine
    { log := List.append_assoc ..
      step := ?_
      wf := hwf.of_replaced hreplaced (.inl hopen')
        (fun b uid => not_closing_of_handling hpc _ b uid)
        fun stage b uid hclosing => nomatch hclosing
      output := ?_
      closed := by simp }
  · have hstep := Connections.Step.output hpending hnone hcmd hfor hbytes
    rw [hnone] at hstep
    rw [hreplaced.abs (hwf.ids _ conn hfirst).1, hpeer]
    exact hstep
  · intro k' d' b bytes htook hout
    simp only [List.mem_cons, NetEvent.took.injEq, NetEvent.output.injEq, List.not_mem_nil,
      or_false, reduceCtorEq, false_or] at htook hout
    obtain ⟨rfl, rfl⟩ := htook
    obtain ⟨rfl, -⟩ := hout
    exact ⟨⟨⟨answer, rfl⟩, ⟨_, hpc⟩, htarget⟩, hcmd⟩

theorem simulated_calledBack (hwf : s.Wf) {k : Nat} {d : SendData} {answer : WriteAnswer}
    {conn : ConnectorPtr} (hpc : s.pc = .handling k d) (htarget : s.target d = .ok (some conn))
    (hcmd : d.cmd = .close) :
    ∃ events, Simulated (.net answer) s ({ s.emit [.took k d] with
      pc := .closing .eventStop conn d.uid }.emit [.closedCB conn k (scanReason d.buffer)
        (s.connectorList.first (slotOf (s.connectors conn).id))]) events := by
  obtain ⟨hpending, hnone⟩ := abs_handling hpc
  obtain ⟨hfor, hfirst, hid⟩ := hwf.isFor_of_target htarget
  have hopen := (hwf.isOpen _ conn hfirst).resolve_right fun ⟨uid, hclosing⟩ =>
    not_closing_of_handling hpc _ conn uid hclosing
  -- the callback finds the connector in its own slot
  have hholder : s.connectorList.first (slotOf (s.connectors conn).id) = some conn := by
    rw [hid]
    exact hfirst
  have htable : SameTable s ({ s.emit [.took k d] with
      pc := .closing .eventStop conn d.uid }.emit [.closedCB conn k (scanReason d.buffer)
        (s.connectorList.first (slotOf (s.connectors conn).id))]) := .of_eq rfl rfl rfl rfl
  refine ⟨[.took k d, .closedCB conn k (scanReason d.buffer) (some conn)], ?_⟩
  refine
    { log := ?_
      step := ?_
      wf := ?_
      output := by simp
      closed := ?_ }
  · change (s.log ++ [.took k d]) ++ [.closedCB conn k (scanReason d.buffer)
      (s.connectorList.first (slotOf (s.connectors conn).id))] = _
    rw [hholder, List.append_assoc]
    rfl
  · have hstep : ∀ reason, Connections.Step s.abs
        [.took k d, .closedCB conn k reason (some conn)] _ := fun reason =>
      .called hpending hnone hcmd hfor
    exact htable.abs ▸ hstep _
  · refine hwf.of_same htable
      (fun a uid hdel => absurd hdel (not_closing_of_handling hpc _ a uid)) ?_
    intro stage b uid hclosing
    cases hclosing
    exact
      { made := (hwf.ids _ conn hfirst).1
        id := hid.symm
        not_numbered := fun hnum => (hwf.numbered conn hnum).2.2.2 _ hfirst
        isOpen := fun _ => hopen
        isClosed := fun hs => by rcases hs with hs | hs <;> cases hs }
  · intro b k' reason holder hmem
    simp only [List.mem_cons, NetEvent.closedCB.injEq, List.not_mem_nil, or_false, reduceCtorEq,
      false_or] at hmem
    obtain ⟨rfl, rfl, -, -⟩ := hmem
    exact ⟨d, ⟨⟨answer, rfl⟩, ⟨_, hpc⟩, htarget⟩, hcmd⟩

/-- The command finds no connection. -/
theorem simulated_missed (hwf : s.Wf) {k : Nat} {d : SendData} (hpc : s.pc = .handling k d)
    (htarget : s.target d = .ok none) :
    Simulated act s ({ s with pc := .draining }.emit [.took k d]) [.took k d] := by
  obtain ⟨hpending, hnone⟩ := abs_handling hpc
  have htable : SameTable s ({ s with pc := .draining }.emit [.took k d]) :=
    .of_eq rfl rfl rfl rfl
  obtain ⟨habs, hwf'⟩ := hwf.of_handled hpc htable rfl rfl rfl
  refine .of_plain rfl ?_ hwf' (by simp [performs])
  rw [habs]
  refine .pass hpending hnone (.inr ?_)
  intro a p hfor
  rw [hwf.target_of_isFor hfor] at htarget
  cases htarget

/-- The command changes nothing a peer knows of. -/
theorem simulated_modified (hwf : s.Wf) {k : Nat} {d : SendData} {conn : ConnectorPtr}
    {c : Connector} (hpc : s.pc = .handling k d) (hcmd : d.cmd = .modify)
    (hpeer : c.peer = (s.connectors conn).peer) :
    Simulated act s ({ s.emit [.took k d] with pc := .draining }.setConnector conn c)
      [.took k d] := by
  obtain ⟨hpending, hnone⟩ := abs_handling hpc
  have hpc' : SameTable s { s.emit [.took k d] with pc := .draining } := .of_eq rfl rfl rfl rfl
  obtain ⟨habs, hwf'⟩ := hwf.of_handled hpc (hpc'.trans (sameTable_setConnector hpeer)) rfl rfl rfl
  refine .of_plain rfl ?_ hwf' (by simp [performs])
  rw [habs]
  exact .pass hpending hnone (.inl hcmd)

/-- A slot was freed: what it held is listed no more, everything else as before. -/
theorem Wf.isListed_unlisted (hwf : s.Wf) {slot : Nat} {b : ConnectorPtr}
    (hb : s.connectorList.first slot = some b) (hconns : t.connectors = s.connectors)
    (hfirst : ∀ s', t.connectorList.first s' =
      if slot = s' then none else s.connectorList.first s') (a : ConnectorPtr) :
    t.isListed a = if a = b then false else s.isListed a := by
  have hslot := (hwf.ids slot b hb).2.1
  rw [isListed, isListed, hconns, hfirst]
  by_cases hab : a = b
  · subst hab
    rw [if_pos rfl, if_pos hslot.symm]
    rfl
  · rw [if_neg hab]
    by_cases hs : slot = slotOf (s.connectors a).id
    · rw [if_pos hs, ← hs, hb]
      simp [Ne.symm hab]
    · rw [if_neg hs]

/-- A slot was freed and the connectors are as before. -/
structure Freed (s t : NetThread) (slot : Nat) : Prop where
  first : ∀ s', t.connectorList.first s' = if slot = s' then none else s.connectorList.first s'
  magic : t.connectorList.iConnectionMagic = s.connectorList.iConnectionMagic
  connectors : t.connectors = s.connectors
  next : t.nextConnector = s.nextConnector
  consistent : ∃ added, t.connectorList.Consistent s.reservedSlots added

theorem Freed.of_first {slot slot' : Nat} {a : ConnectorPtr} (h : Freed s t slot)
    (hfirst : t.connectorList.first slot' = some a) :
    slot ≠ slot' ∧ s.connectorList.first slot' = some a := by
  rw [h.first] at hfirst
  split at hfirst
  · cases hfirst
  · rename_i hne
    exact ⟨hne, hfirst⟩

theorem Freed.abs {uid : UInt32} (h : Freed s t (slotOf uid)) (hwf : s.Wf) {b : ConnectorPtr}
    (hb : s.connectorList.first (slotOf uid) = some b) (hlist : t.sendlist = s.sendlist)
    (hnum : t.acceptedNum = s.acceptedNum) (hhand : inHand t.pc = inHand s.pc) :
    t.abs = ({ s.abs with closing := closingStage t.pc, adding := t.acceptor }).setListed b false := by
  have hpeer : t.abs.peer = s.abs.peer := by
    funext a
    change (if a < t.nextConnector then some (t.connectors a).peer else none) = _
    rw [h.next, h.connectors]
    rfl
  have hlisted : t.abs.listed = fun a => if a = b then false else s.abs.listed a :=
    funext (hwf.isListed_unlisted hb h.connectors h.first)
  have hpending : t.abs.pending = s.abs.pending := by
    change inHand t.pc ++ t.sendlist.queue = inHand s.pc ++ s.sendlist.queue
    rw [hhand, hlist]
  change (⟨t.abs.peer, t.abs.listed, t.abs.pending, t.acceptedNum, closingStage t.pc, t.acceptor⟩ :
    Connections) = _
  rw [hpeer, hlisted, hpending, hnum]
  rfl

theorem Wf.of_freed (hwf : s.Wf) {slot : Nat} (h : Freed s t slot)
    (hacceptor : t.acceptor = s.acceptor ∨ t.acceptor = .idle ∧ ∃ a, s.acceptor = .added a)
    (hopen : ∀ slot' a, slot ≠ slot' → s.connectorList.first slot' = some a →
      (s.connectors a).isOpen = true ∨ ∃ uid, t.pc = .closing .del a uid)
    (hclosing : ∀ stage a uid, t.pc = .closing stage a uid → ClosingOk t stage a uid) : t.Wf := by
  -- a slot is not freed while a connector has its id and waits to be added
  have hnumbered : ∀ a, t.acceptor = .numbered a → s.acceptor = .numbered a := by
    intro a ha
    rcases hacceptor with hsame | ⟨hidle, -⟩
    · exact hsame.symm.trans ha
    · rw [hidle] at ha
      cases ha
  -- so that the reserved slots are the same
  have hreserved : t.reservedSlots = s.reservedSlots := by
    unfold NetThread.reservedSlots
    rcases hacceptor with hsame | ⟨hidle, a, ha⟩
    · rw [hsame, h.connectors]
    · rw [hidle, ha]
  constructor
  case consistent =>
    rw [hreserved]
    exact h.consistent
  case ids =>
    intro slot' a hfirst
    rw [h.connectors, h.next, h.magic]
    exact hwf.ids slot' a (h.of_first hfirst).2
  case numbered =>
    intro a ha
    obtain ⟨hlt, hmagic, ho, hno⟩ := hwf.numbered a (hnumbered a ha)
    rw [h.connectors, h.next, h.magic]
    exact ⟨hlt, hmagic, ho, fun slot' hfirst => hno slot' (h.of_first hfirst).2⟩
  case added =>
    intro a ha
    rw [h.next]
    rcases hacceptor with hsame | ⟨hidle, -⟩
    · exact hwf.added a (hsame.symm.trans ha)
    · rw [hidle] at ha
      cases ha
  case isOpen =>
    intro slot' a hfirst
    rw [h.connectors]
    exact hopen slot' a (h.of_first hfirst).1 (h.of_first hfirst).2
  case closing =>
    exact hclosing

/-- What `del` did to the list of a net thread. -/
theorem freed_of_del (hwf : s.Wf) {uid : UInt32} {list : ConnectorList}
    (hdel : s.connectorList.del uid = .ok list) :
    (∃ b, s.connectorList.first (slotOf uid) = some b) ∧
      ∀ t : NetThread, t.connectorList = list → t.connectors = s.connectors →
        t.nextConnector = s.nextConnector → Freed s t (slotOf uid) := by
  obtain ⟨added, hcons⟩ := hwf.consistent
  obtain ⟨b, added', hb, hmagic, hfirst, hcons'⟩ := ConnectorList.del_ok hcons hdel
  refine ⟨⟨b, hb⟩, ?_⟩
  intro t hlist hconns hnext
  subst hlist
  exact ⟨hfirst, hmagic, hconns, hnext, added', hcons'⟩

/-- The stage the net thread has reached, and nothing in its hand. -/
theorem abs_closing {stage : CloseStage} {conn : ConnectorPtr} {uid : UInt32}
    (hpc : s.pc = .closing stage conn uid) :
    s.abs.closing = some (stage, conn) ∧ s.abs.pending = s.sendlist.queue := by
  constructor
  · change closingStage s.pc = _
    rw [hpc]
    rfl
  · change inHand s.pc ++ s.sendlist.queue = _
    rw [hpc]
    rfl

theorem simulated_stopped (hwf : s.Wf) {conn : ConnectorPtr} {uid : UInt32}
    (hpc : s.pc = .closing .eventStop conn uid) :
    Simulated act s ({ s with pc := .closing .close conn uid }.emit
      [.eventStop conn (s.connectors conn).connectFd])
        [.eventStop conn (s.connectors conn).connectFd] := by
  have hok := hwf.closing _ conn uid hpc
  obtain ⟨hclosing, hpending⟩ := abs_closing hpc
  have htable : SameTable s ({ s with pc := .closing .close conn uid }.emit
      [.eventStop conn (s.connectors conn).connectFd]) := .of_eq rfl rfl rfl rfl
  refine .of_plain rfl ?_ ?_ (by simp [performs])
  · have hstep := Connections.Step.stopped hclosing (hwf.peer_of_closing hpc)
    -- the command is out of the list already, and the thread's hand is empty
    rw [htable.abs]
    change Connections.Step s.abs _
      ⟨s.abs.peer, s.abs.listed, s.sendlist.queue, s.acceptedNum, some (.close, conn), s.abs.adding⟩
    rw [← hpending]
    exact hstep
  · refine hwf.of_same htable (fun a u hdel => nomatch hpc.symm.trans hdel) ?_
    intro stage a u ha
    cases ha
    exact
      { hok with
        isOpen := fun _ => hok.isOpen (.inl rfl)
        isClosed := fun hs => by rcases hs with hs | hs <;> cases hs }

theorem simulated_shut (hwf : s.Wf) {conn : ConnectorPtr} {uid : UInt32}
    (hpc : s.pc = .closing .close conn uid) :
    ∃ events, Simulated act s (({ s with pc := .closing .del conn uid }.setConnector conn
      { (s.connectors conn).close.1 with data := .zero 8 }).emit
        ((s.connectors conn).close.2.toList.map (.closeFd conn))) events := by
  have hok := hwf.closing _ conn uid hpc
  obtain ⟨hclosing, hpending⟩ := abs_closing hpc
  -- an open connector's descriptor is closed, and it is marked closed
  have hcloses : (s.connectors conn).close =
      ({ s.connectors conn with isClosed := true }, some (s.connectors conn).connectFd) :=
    if_pos (hok.isOpen (.inr rfl))
  simp only [hcloses, Option.toList_some, List.map_cons, List.map_nil]
  have hreplaced : Replaced s (({ s with pc := .closing .del conn uid }.setConnector conn
      { s.connectors conn with isClosed := true, data := .zero 8 }).emit
        [.closeFd conn (s.connectors conn).connectFd]) conn
      { s.connectors conn with isClosed := true, data := .zero 8 } := ⟨rfl, rfl, rfl, rfl, rfl⟩
  refine ⟨_, .of_plain rfl ?_ ?_ (by simp [performs])⟩
  · have hstep := Connections.Step.shut hclosing (hwf.peer_of_closing hpc)
    rw [hreplaced.abs hok.made]
    rw [hpending] at hstep
    exact hstep
  · refine hwf.of_replaced hreplaced (.inr ⟨⟨uid, rfl⟩, hok.not_numbered⟩)
      (fun b u hdel => nomatch hpc.symm.trans hdel) ?_
    intro stage a u ha
    cases ha
    exact
      { made := hok.made
        id := by rw [hreplaced.id_eq]; exact hok.id
        not_numbered := hok.not_numbered
        isOpen := fun hs => by rcases hs with hs | hs <;> cases hs
        isClosed := fun _ => by rw [hreplaced.connectors, Connectors.set_self] }

theorem simulated_removed (hwf : s.Wf) {conn : ConnectorPtr} {uid : UInt32} {list : ConnectorList}
    (hpc : s.pc = .closing .del conn uid) (hdel : s.connectorList.del uid = .ok list) :
    ∃ events, Simulated act s ({ s with
      connectorList := list
      pc := .closing .release conn uid }.emit [.removed conn]) events := by
  have hok := hwf.closing _ conn uid hpc
  obtain ⟨⟨b, hb⟩, hfreed⟩ := freed_of_del hwf hdel
  have hfreed' := hfreed ({ s with connectorList := list, pc := .closing .release conn uid }.emit
    [.removed conn]) rfl rfl rfl
  refine ⟨_, .of_plain rfl ?_ ?_ (by simp [performs])⟩
  · rw [hfreed'.abs hwf hb rfl rfl (by rw [hpc]; rfl)]
    refine .removed (abs_closing hpc).1 (hwf.listed_of_first hb) ?_
    intro hlisted
    have hfirst := isListed_iff.mp hlisted
    rw [← hok.slot, hb] at hfirst
    exact Option.some.inj hfirst
  · refine hwf.of_freed hfreed' (.inl rfl) ?_ ?_
    · intro slot' a hne hfirst
      refine (hwf.isOpen slot' a hfirst).imp_right ?_
      -- the connection being closed is in no other slot
      rintro ⟨u, hu⟩
      cases hpc.symm.trans hu
      exact absurd (hok.slot.trans (hwf.ids slot' _ hfirst).2.1) hne
    · intro stage' a u ha
      cases ha
      exact
        { made := hok.made
          id := hok.id
          not_numbered := hok.not_numbered
          isOpen := fun hs => by rcases hs with hs | hs <;> cases hs
          isClosed := fun _ => hok.isClosed (.inl rfl) }

theorem simulated_released (hwf : s.Wf) {conn : ConnectorPtr} {uid : UInt32}
    (hpc : s.pc = .closing .release conn uid) :
    ∃ events, Simulated act s ({ s with pc := .draining }.emit
      ((s.connectors conn).destructor.toList.map (.closeFd conn))) events := by
  have hok := hwf.closing _ conn uid hpc
  obtain ⟨hclosing, hpending⟩ := abs_closing hpc
  -- the descriptor is closed already, so the destructor closes nothing
  have hnothing : (s.connectors conn).destructor = none := if_pos (hok.isClosed (.inr rfl))
  rw [hnothing]
  have htable : SameTable s ({ s with pc := .draining }.emit []) := .of_eq rfl rfl rfl rfl
  refine ⟨_, .of_plain rfl ?_ ?_ (by simp)⟩
  · have hstep := Connections.Step.released hclosing
    rw [hpending] at hstep
    exact htable.abs ▸ hstep
  · refine hwf.of_same htable (fun a u hdel => nomatch hpc.symm.trans hdel) ?_
    intro stage a u ha
    cases ha

/-! ## The other steps -/

/-- The next command goes from the list into the thread's hand. -/
theorem simulated_popped (hwf : s.Wf) {k : Nat} {d : SendData} {rest : ThreadQueue (Nat × SendData)}
    (hpc : s.pc = .draining) (hqueue : s.sendlist.queue = (k, d) :: rest.queue) :
    Simulated act s { s with sendlist := rest, pc := .handling k d } [] := by
  have htable : SameTable s { s with sendlist := rest, pc := .handling k d } :=
    .of_eq rfl rfl rfl rfl
  refine .of_plain (List.append_nil _).symm ?_ ?_ (by simp)
  -- the command moves from the head of the list to the thread's hand
  · have habs : ({ s with sendlist := rest, pc := .handling k d } : NetThread).abs = s.abs := by
      rw [htable.abs]
      have hpending : s.abs.pending = (k, d) :: rest.queue := by
        change inHand s.pc ++ s.sendlist.queue = _
        rw [hpc, hqueue]
        rfl
      have hclosing : s.abs.closing = none := by
        change closingStage s.pc = _
        rw [hpc]
        rfl
      change (⟨s.abs.peer, s.abs.listed, (k, d) :: rest.queue, s.abs.acceptedNum, none,
        s.abs.adding⟩ : Connections) = s.abs
      rw [← hpending, ← hclosing]
    rw [habs]
    exact .idle
  · refine hwf.of_same htable (fun a u hdel => nomatch hpc.symm.trans hdel) ?_
    intro stage a u ha
    cases ha

/-- The tick only changes the time of the last one. -/
theorem simulated_ticked (hwf : s.Wf) (hpc : s.pc = .waiting) (now : Int)
    (entries : List (MultimapEntry Int Nat)) :
    Simulated act s { s with
      connectorList := { s.connectorList with lastTimeoutTime := now }
      pc := .ticking entries } [] := by
  refine simulated_idle hwf ?_ (.inr ⟨aside_of_pc hpc ⟨rfl, rfl⟩, rfl, rfl⟩) rfl rfl rfl
  exact
    { first := fun _ => rfl
      magic := rfl
      peer := fun _ => rfl
      next := rfl
      acceptor := rfl
      consistent := fun _ _ hc => { hc with } }

/-! ## The acceptor -/

theorem simulated_accepted (hwf : s.Wf) {c : Connector} {uid : UInt32} {list : ConnectorList}
    (hidle : s.acceptor = .idle) (huid : s.connectorList.getUniqId = .ok (uid, list))
    (hid : c.id = uid) (hopen : c.isOpen = true) (hempty : c.outBuf.content = []) :
    Simulated act s ({ s with
      connectorList := list
      nextConnector := s.nextConnector + 1
      acceptor := .numbered s.nextConnector }.setConnector s.nextConnector c) [] := by
  obtain ⟨added, hcons⟩ := hwf.consistent
  obtain ⟨hmagic, hsame, hfirst, hcons'⟩ := ConnectorList.getUniqId_ok hcons huid
  -- no slot is reserved yet; the one of the new id is from now on
  have hnoslots : s.reservedSlots = [] := by rw [reservedSlots, hidle]
  rw [hnoslots] at hcons'
  have hcreated : Created s ({ s with
      connectorList := list
      nextConnector := s.nextConnector + 1
      acceptor := .numbered s.nextConnector }.setConnector s.nextConnector c) c :=
    ⟨hfirst, hsame, rfl, rfl, rfl, added, hid ▸ hcons'⟩
  refine .of_plain (List.append_nil _).symm ?_ ?_ (by simp)
  · rw [hcreated.abs hwf]
    exact .numbered hidle (if_neg (Nat.lt_irrefl _)) (decide_eq_false (hwf.first_ne_next _)) hempty
  · exact hwf.of_created hcreated (hid ▸ hmagic) hopen rfl

/-- A connector that is about to be added has its id already. -/
theorem Wf.id_ne_zero (hwf : s.Wf) {conn : ConnectorPtr} (hadding : s.acceptor = .numbered conn) :
    (s.connectors conn).id ≠ 0 := by
  obtain ⟨added, hcons⟩ := hwf.consistent
  have hslots : s.reservedSlots = [slotOf (s.connectors conn).id] := by rw [reservedSlots, hadding]
  rw [hslots] at hcons
  intro hzero
  have hpos := (hcons.occupied_range (List.mem_append_left _ (List.mem_singleton_self _))).1
  rw [hzero] at hpos
  exact absurd hpos (by decide)

/-- What `add_connector` does with a connector that has its id. -/
theorem enlisted_of_add (hwf : s.Wf) {conn : ConnectorPtr} {now : Int} {list : ConnectorList}
    (hadding : s.acceptor = .numbered conn)
    (hadd : s.connectorList.add (s.connectors.set conn { s.connectors conn with owner := true }) conn
      ((s.connectors conn).timeout + now) = .ok list) :
    Enlisted s ({ s.setConnector conn { s.connectors conn with owner := true } with
      connectorList := list
      acceptor := .added conn }.emit [.added conn (s.connectors conn).id (s.connectors conn).ip
        (s.connectors conn).port]) conn ∧
      s.connectorList.first (slotOf (s.connectors conn).id) = none := by
  obtain ⟨-, hmagic, -, -⟩ := hwf.numbered conn hadding
  obtain ⟨added, hcons⟩ := hwf.consistent
  have hslots : s.reservedSlots = [slotOf (s.connectors conn).id] := by rw [reservedSlots, hadding]
  rw [hslots] at hcons
  -- setting the owner changes no peer and no id
  have htable : SameTable s (s.setConnector conn { s.connectors conn with owner := true }) :=
    sameTable_setConnector rfl
  have hids : ∀ b, (s.connectors.set conn { s.connectors conn with owner := true } b).id =
      (s.connectors b).id := fun b => Connector.id_of_peer (htable.peer b)
  -- the reserved slot becomes an occupied one
  obtain ⟨list', hadd', hsame, -, hfirst, hcons'⟩ := ConnectorList.add_spec
    (s.connectors.set conn { s.connectors conn with owner := true }) conn
    ((s.connectors conn).timeout + now) (by rw [hids]; exact hmagic) (by rw [hids]; exact hcons)
  rw [hids] at hfirst hcons'
  cases hadd.symm.trans hadd'
  exact ⟨⟨hfirst, hsame, htable.peer, rfl, rfl, _, hcons'⟩,
    hcons.first_reserved (List.mem_singleton_self _)⟩

theorem simulated_added (hwf : s.Wf) {conn : ConnectorPtr} {now : Int} {list : ConnectorList}
    (hadding : s.acceptor = .numbered conn)
    (hadd : s.connectorList.add (s.connectors.set conn { s.connectors conn with owner := true }) conn
      ((s.connectors conn).timeout + now) = .ok list) :
    ∃ events, Simulated act s ({ s.setConnector conn { s.connectors conn with owner := true } with
      connectorList := list
      acceptor := .added conn }.emit [.added conn (s.connectors conn).id (s.connectors conn).ip
        (s.connectors conn).port]) events := by
  obtain ⟨henlisted, hempty⟩ := enlisted_of_add hwf hadding hadd
  have hpeer : s.abs.peer conn = some (s.connectors conn).peer :=
    if_pos (hwf.numbered conn hadding).1
  refine ⟨_, .of_plain rfl ?_ (hwf.of_enlisted henlisted hadding rfl) (by simp [performs])⟩
  rw [henlisted.abs hempty]
  refine .added hadding hpeer ?_
  -- another connection with this id would be in the slot, which is empty
  intro b q hlisted hq huid
  have hslot := isListed_iff.mp hlisted
  cases (hwf.peer_of_first hslot).symm.trans hq
  have hsameid : (s.connectors b).id = (s.connectors conn).id := huid
  rw [hsameid, hempty] at hslot
  cases hslot

theorem simulated_registered (hwf : s.Wf) {conn : ConnectorPtr} (hadding : s.acceptor = .added conn) :
    Simulated act s { s with acceptor := .idle } [] := by
  have hreserved : s.reservedSlots = [] := by rw [reservedSlots, hadding]
  refine .of_plain (List.append_nil _).symm (.registered hadding) ?_ (by simp)
  obtain ⟨added, hcons⟩ := hwf.consistent
  rw [hreserved] at hcons
  exact
    { consistent := ⟨added, hcons⟩
      ids := hwf.ids
      numbered := fun a ha => nomatch ha
      added := fun a ha => nomatch ha
      isOpen := hwf.isOpen
      closing := fun stage a uid ha =>
        { hwf.closing stage a uid ha with not_numbered := fun hnum => nomatch hnum } }

/-- The destructor closes the descriptor, unless it is closed or another pointer is left. -/
theorem destroyed_events (s : NetThread) (conn : ConnectorPtr) :
    ∃ destroyed : Bool, (if s.holds conn then [] else
      (s.connectors conn).destructor.toList.map (NetEvent.closeFd conn)) =
        if destroyed then [.closeFd conn (s.connectors conn).peer.fd] else [] := by
  unfold Connector.destructor
  split
  · exact ⟨false, rfl⟩
  · split
    · exact ⟨false, rfl⟩
    · exact ⟨true, rfl⟩

/-- `event_ctl` has failed. -/
theorem simulated_unregistered (hwf : s.Wf) {conn : ConnectorPtr} {list : ConnectorList}
    (hadding : s.acceptor = .added conn)
    (hdel : s.connectorList.del (s.connectors conn).id = .ok list) :
    ∃ events, Simulated act s ({ s with connectorList := list, acceptor := .idle }.emit
      (.removed conn :: if s.holds conn then [] else
        (s.connectors conn).destructor.toList.map (.closeFd conn))) events := by
  obtain ⟨⟨b, hb⟩, hfreed⟩ := freed_of_del hwf hdel
  -- whether the destructor runs depends on the pointers that are left
  obtain ⟨destroyed, hevents⟩ := destroyed_events s conn
  rw [hevents]
  have hfreed' := hfreed ({ s with connectorList := list, acceptor := .idle }.emit
    (.removed conn :: if destroyed then [.closeFd conn (s.connectors conn).peer.fd] else []))
    rfl rfl rfl
  refine ⟨_, .of_plain rfl ?_ ?_ ?_⟩
  · rw [hfreed'.abs hwf hb rfl rfl rfl]
    refine .refused destroyed hadding (hwf.listed_of_first hb) ?_ (if_pos (hwf.added conn hadding))
    intro hlisted
    exact Option.some.inj (hb.symm.trans (isListed_iff.mp hlisted))
  · refine hwf.of_freed hfreed' (.inr ⟨rfl, conn, hadding⟩) ?_ ?_
    -- the other connectors are as open as before
    · intro slot' a _ hfirst
      exact hwf.isOpen slot' a hfirst
    · intro stage a uid ha
      exact { hwf.closing stage a uid ha with not_numbered := fun hnum => nomatch hnum }
  · intro e he
    rcases List.mem_cons.mp he with rfl | he
    · rfl
    · split at he
      · rw [List.mem_singleton] at he
        subst he
        rfl
      · cases he

/-! ## Every step -/

/-- **Simulation**: every step is an abstract step, and the invariant stays. -/
theorem step_simulates (hwf : s.Wf) (h : step server s act = .ok t) :
    ∃ events, Simulated act s t events := by
  -- one case for each thing a step can do
  cases step_moves h with
  | idle | waits | begun =>
    exact ⟨[], simulated_idle hwf (.of_eq rfl rfl rfl rfl) (.inl rfl) rfl rfl rfl⟩
  | pushed hk hpush =>
    exact simulated_push hwf hpush (.of_eq rfl rfl rfl rfl) (.inl hpush.pc_eq) rfl rfl rfl
  | accepted hidle hfd howns hfree huid =>
    exact ⟨[], simulated_accepted hwf hidle huid rfl (decide_eq_true hfd) Buffer.content_init⟩
  | added hnumbered hfree huid hadd =>
    -- the id is given already, so that `add_connector` asks for no other
    rw [if_neg (hwf.id_ne_zero hnumbered)] at huid
    cases huid
    exact simulated_added hwf hnumbered hadd
  | registered hadded => exact ⟨[], simulated_registered hwf hadded⟩
  | unregistered hadded hfree hdel => exact simulated_unregistered hwf hadded hdel
  | notified hpc =>
    exact ⟨[], simulated_idle hwf (.of_eq rfl rfl rfl rfl)
      (.inr ⟨aside_of_pc hpc ⟨rfl, rfl⟩, rfl, rfl⟩) rfl rfl rfl⟩
  | readEnded hpc hget hloop hafter => exact ⟨_, simulated_readEnded hwf hpc hget hloop hafter⟩
  | readOn hpc hget hloop hrefresh => exact ⟨_, simulated_readOn hwf hpc hget hloop hrefresh⟩
  | ticked hpc => exact ⟨[], simulated_ticked hwf hpc _ _⟩
  | drained hpc =>
    exact ⟨[], simulated_idle hwf (.of_eq rfl rfl rfl rfl)
      (.inr ⟨aside_of_pc hpc ⟨rfl, rfl⟩, rfl, rfl⟩) rfl rfl rfl⟩
  | popped hpc hqueue => exact ⟨[], simulated_popped hwf hpc hqueue⟩
  | missed hpc htarget => exact ⟨_, simulated_missed hwf hpc htarget⟩
  | sent hpc htarget hcmd hwrite => exact ⟨_, simulated_sent hwf hpc htarget hcmd hwrite⟩
  | calledBack hpc htarget hcmd => exact simulated_calledBack hwf hpc htarget hcmd
  | modified hpc htarget hcmd => exact ⟨_, simulated_modified hwf hpc hcmd rfl⟩
  | stopped hpc => exact ⟨_, simulated_stopped hwf hpc⟩
  | shut hpc => exact simulated_shut hwf hpc
  | removed hpc hdel => exact simulated_removed hwf hpc hdel
  | released hpc => exact simulated_released hwf hpc
  | checked hpc | passedOver hpc =>
    exact ⟨[], simulated_idle hwf (.of_eq rfl rfl rfl rfl)
      (.inr ⟨aside_of_pc hpc ⟨rfl, rfl⟩, rfl, rfl⟩) rfl rfl rfl⟩
  | @timedOut _ _ _ conn pc hpc _ _ hafter =>
    -- only the mark that the timeout is over changes
    have hset : SameTable s (s.setConnector conn (s.connectors conn).setIsTimeout) :=
      sameTable_setConnector rfl
    exact ⟨[], simulated_idle hwf (hset.trans (.of_eq rfl rfl rfl rfl))
      (.inr ⟨aside_of_pc hpc ⟨rfl, rfl⟩, hafter.aside _⟩) rfl rfl rfl⟩
  | @requested _ p rest u next hpc hpush =>
    have hs : s.Aside := aside_of_pc hpc ⟨rfl, rfl⟩
    have ht : Aside { u with pc := afterPush rest next } := by
      cases next with
      | some p' => exact ⟨rfl, rfl⟩
      | none => exact aside_resume rest u
    exact simulated_push hwf hpush (.of_eq rfl rfl rfl rfl) (.inr ⟨hs, ht⟩) rfl rfl rfl

/-- **Initial states**: the list is empty and in order, whatever number of slots it has. -/
theorem wf_initWith {size : Nat} (hsize : size < 2 ^ 20) (server : Server) (maxSize : Nat)
    (now : Int) (connectors : Connectors) :
    ({ init server maxSize now connectors with
      connectorList := ConnectorList.init size (UInt32.ofNat server.index) now } : NetThread).Wf := by
  have hcons := ConnectorList.init_consistent hsize (UInt32.ofNat server.index) now
  -- no slot of a new list is occupied
  have hempty : ∀ slot a,
      (ConnectorList.init size (UInt32.ofNat server.index) now).first slot ≠ some a := by
    intro slot a hfirst
    have hmem := (hcons.occupied slot).mp (Option.isSome_of_eq_some hfirst)
    cases hmem
  exact
    { consistent := ⟨[], hcons⟩
      ids := fun slot a hfirst => absurd hfirst (hempty slot a)
      numbered := fun a ha => nomatch ha
      added := fun a ha => nomatch ha
      isOpen := fun slot a hfirst => absurd hfirst (hempty slot a)
      closing := fun stage a uid ha => nomatch ha }

theorem wf_init (server : Server) (maxSize : Nat) (now : Int) (connectors : Connectors) :
    (init server maxSize now connectors).Wf :=
  wf_initWith (by decide : connectorTotal < 2 ^ 20) server maxSize now connectors

/-- The abstract state a net thread begins in has no connections. -/
theorem abs_init (server : Server) (maxSize : Nat) (now : Int) (connectors : Connectors) :
    (init server maxSize now connectors).abs = .empty := by
  have hwf := wf_init server maxSize now connectors
  have hlisted : ∀ a, (init server maxSize now connectors).isListed a = false := by
    intro a
    rw [Bool.eq_false_iff]
    intro hlisted
    exact absurd (hwf.ids _ a (isListed_iff.mp hlisted)).1 (Nat.not_lt_zero a)
  have hpeer : ∀ a, (init server maxSize now connectors).abs.peer a = none := by
    intro a
    change (if a < 0 then some (connectors a).peer else none) = none
    exact if_neg (Nat.not_lt_zero a)
  change (⟨(init server maxSize now connectors).abs.peer,
    (init server maxSize now connectors).isListed, _, _, _, _⟩ : Connections) = _
  rw [funext hpeer, funext hlisted]
  rfl

end NetThread

end Sails.Net
