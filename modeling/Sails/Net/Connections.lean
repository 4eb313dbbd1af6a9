import Sails.Net.NetThread

/-!
# What a net thread is for

An abstract net thread: the connections that are listed, the bytes waiting for each, the
commands not yet carried out, and the connection that is being closed. The slot array, the
ids' two parts, the byte buffers and the program counters are gone.

- `Connections`: the states
- `Connections.Step`: what may happen, with the events it is seen by
- `Step.same_peer`, `Step.seated`: what no step changes
-/

namespace Sails.Net

open CMemory

/-- What a command addresses a connection by. -/
structure Ident where
  uid : UInt32
  ip : Bytes
  port : UInt16
  deriving DecidableEq

def SendData.ident (d : SendData) : Ident := ⟨d.uid, d.ip, d.port⟩

/-- A connector as its peer and the kernel know it. -/
structure Peer where
  ident : Ident
  fd : Int
  isClosed : Bool
  /-- bytes waiting to be handed to the kernel -/
  outgoing : Bytes

/-- A net thread as its connections see it. -/
structure Connections where
  peer : ConnectorPtr → Option Peer
  listed : ConnectorPtr → Bool
  /-- the commands accepted and not yet carried out, with their numbers -/
  pending : List (Nat × SendData)
  acceptedNum : Nat
  closing : Option (CloseStage × ConnectorPtr)
  adding : Acceptor

namespace Connections

/-- No connections and no commands. -/
def empty : Connections where
  peer _ := none
  listed _ := false
  pending := []
  acceptedNum := 0
  closing := none
  adding := .idle

/-- The part of a buffer that gets past the conversion of its length to `int`. -/
def narrow (buffer : Bytes) : Bytes := buffer.take (toInt32 buffer.length).toNat

theorem narrow_eq_self {buffer : Bytes} (h : buffer.length < 2 ^ 31) : narrow buffer = buffer := by
  rw [narrow, toInt32_of_lt h, Int.toNat_natCast, List.take_length]

def setPeer (c : Connections) (a : ConnectorPtr) (p : Peer) : Connections :=
  { c with peer := fun b => if b = a then some p else c.peer b }

def setListed (c : Connections) (a : ConnectorPtr) (l : Bool) : Connections :=
  { c with listed := fun b => if b = a then l else c.listed b }

@[simp] theorem setPeer_peer (c : Connections) (a b : ConnectorPtr) (p : Peer) :
    (c.setPeer a p).peer b = if b = a then some p else c.peer b := rfl

@[simp] theorem setPeer_listed (c : Connections) (a b : ConnectorPtr) (p : Peer) :
    (c.setPeer a p).listed b = c.listed b := rfl

@[simp] theorem setListed_peer (c : Connections) (a b : ConnectorPtr) (l : Bool) :
    (c.setListed a l).peer b = c.peer b := rfl

@[simp] theorem setListed_listed (c : Connections) (a b : ConnectorPtr) (l : Bool) :
    (c.setListed a l).listed b = if b = a then l else c.listed b := rfl

/-- The listed connection a command is for. -/
def IsFor (c : Connections) (d : SendData) (a : ConnectorPtr) (p : Peer) : Prop :=
  c.listed a = true ∧ c.peer a = some p ∧ p.ident = d.ident

/-- One step of a net thread or of a thread beside it, with its events. -/
inductive Step : Connections → List NetEvent → Connections → Prop where
  | idle {c} : Step c [] c
  /-- bytes come in on a listed connection -/
  | input {c a events} : c.listed a = true → c.closing = none →
      (∀ e ∈ events, e = .read a ∨ e = .parsed a) → Step c events c
  | accepted {c d} :
      Step c [.accepted c.acceptedNum d]
        { c with
          pending := c.pending ++ [(c.acceptedNum, d)]
          acceptedNum := c.acceptedNum + 1 }
  /-- a command that is for no listed connection, or changes the data of one -/
  | pass {c k d rest} : c.pending = (k, d) :: rest → c.closing = none →
      (d.cmd = .modify ∨ ∀ a p, ¬ c.IsFor d a p) →
      Step c [.took k d] { c with pending := rest }
  | output {c k d rest a p taken outgoing} : c.pending = (k, d) :: rest → c.closing = none →
      d.cmd = .send → c.IsFor d a p →
      p.outgoing ++ narrow d.buffer = taken.getD [] ++ outgoing →
      Step c [.took k d, .output a taken]
        ({ c with pending := rest }.setPeer a { p with outgoing := outgoing })
  | called {c k d rest a p reason} : c.pending = (k, d) :: rest → c.closing = none →
      d.cmd = .close → c.IsFor d a p →
      Step c [.took k d, .closedCB a k reason (some a)]
        { c with pending := rest, closing := some (.eventStop, a) }
  | stopped {c a p} : c.closing = some (.eventStop, a) → c.peer a = some p →
      Step c [.eventStop a p.fd] { c with closing := some (.close, a) }
  | shut {c a p} : c.closing = some (.close, a) → c.peer a = some p →
      Step c [.closeFd a p.fd]
        ({ c with closing := some (.del, a) }.setPeer a { p with isClosed := true })
  /-- the slot that is freed is the connection's own, if it still has one -/
  | removed {c a b} : c.closing = some (.del, a) → c.listed b = true →
      (c.listed a = true → b = a) →
      Step c [.removed a] ({ c with closing := some (.release, a) }.setListed b false)
  | released {c a} : c.closing = some (.release, a) → Step c [] { c with closing := none }
  | numbered {c a p} : c.adding = .idle → c.peer a = none → c.listed a = false →
      p.outgoing = [] → Step c [] ({ c with adding := .numbered a }.setPeer a p)
  | added {c a p} : c.adding = .numbered a → c.peer a = some p →
      (∀ b q, c.listed b = true → c.peer b = some q → q.ident.uid ≠ p.ident.uid) →
      Step c [.added a p.ident.uid p.ident.ip p.ident.port]
        ({ c with adding := .added a }.setListed a true)
  | registered {c a} : c.adding = .added a → Step c [] { c with adding := .idle }
  /-- the event loop refused a new connection, which may be destroyed with that -/
  | refused {c a b p} (destroyed : Bool) : c.adding = .added a → c.listed b = true →
      (c.listed a = true → b = a) → c.peer a = some p →
      Step c (.removed a :: if destroyed then [.closeFd a p.fd] else [])
        ({ c with adding := .idle }.setListed b false)

/-! ## What a step leaves alone -/

variable {c c' : Connections} {events : List NetEvent} {a : ConnectorPtr}

/-- A connection keeps its id, its peer's address and its descriptor. -/
theorem Step.same_peer (h : Step c events c') {p : Peer} (hp : c.peer a = some p) :
    ∃ q, c'.peer a = some q ∧ q.ident = p.ident ∧ q.fd = p.fd := by
  -- only three steps touch a peer
  have hset : ∀ (b : ConnectorPtr) (q r : Peer), c.peer b = some q → r.ident = q.ident →
      r.fd = q.fd → ∃ u, (if a = b then some r else c.peer a) = some u ∧ u.ident = p.ident ∧
        u.fd = p.fd := by
    intro b q r hq hident hfd
    by_cases hab : a = b
    · subst hab
      cases hp.symm.trans hq
      exact ⟨r, if_pos rfl, hident, hfd⟩
    · exact ⟨p, (if_neg hab).trans hp, rfl, rfl⟩
  cases h with
  | @output k d rest b q taken outgoing _ _ _ hfor _ =>
    exact hset b q _ hfor.2.1 rfl rfl
  | @shut b q _ hq => exact hset b q _ hq rfl rfl
  | @numbered b q _ hnone _ _ =>
    refine ⟨p, (if_neg ?_).trans hp, rfl, rfl⟩
    rintro rfl
    rw [hp] at hnone
    cases hnone
  | _ => exact ⟨p, hp, rfl, rfl⟩

/-- The connection is in the list or about to be. -/
def Seated (c : Connections) (a : ConnectorPtr) : Prop := c.listed a = true ∨ c.adding = .numbered a

/-- Only a new connection gets a seat. -/
theorem Step.seated (h : Step c events c') (ha : c'.Seated a) : c.Seated a ∨ c.peer a = none := by
  -- taking a connection off the list seats no other
  have hunlist : ∀ b : ConnectorPtr, (if a = b then false else c.listed a) = true →
      c.listed a = true := by
    intro b hb
    split at hb
    · cases hb
    · exact hb
  cases h with
  | removed _ _ _ =>
    rcases ha with ha | ha
    · exact .inl (.inl (hunlist _ ha))
    · exact .inl (.inr ha)
  | @numbered b q _ hnone hunlisted _ =>
    rcases ha with ha | ha
    · exact .inl (.inl ha)
    · cases ha
      -- the only way to a seat is to get an id, and then the connection is new
      exact .inr hnone
  | @added b q hadding _ _ =>
    rcases ha with ha | ha
    · by_cases hab : a = b
      · subst hab
        exact .inl (.inr hadding)
      · exact .inl (.inl ((if_neg hab).symm.trans ha))
    · cases ha
  | registered _ =>
    rcases ha with ha | ha
    · exact .inl (.inl ha)
    · cases ha
  | refused _ _ _ _ _ =>
    rcases ha with ha | ha
    · exact .inl (.inl (hunlist _ ha))
    · cases ha
  | _ => exact .inl ha

end Connections

end Sails.Net
