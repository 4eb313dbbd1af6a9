import Sails.Net.Connections.Streams
import Sails.Net.NetThread.Accepted
import Sails.Net.NetThread.Wakeup

/-!
# Commands for a connection and the slots of the list

A command names its connection by id, ip and port. A slot that is freed is handed out again with
the same id, so a connection from the same peer's address may get the name of an earlier one.

- `Issued`, `issuedStep`: a net thread with a list of any size, and for each command on its way
  the connection it was issued for
- `NoTwin`: no connection gets the name of an earlier one that a command is on its way for
- `commands_reach_their_own`: then every command is carried out on its own connection
-/

namespace Sails.Net

open TransitionRun
open CMemory
open Sails.Base

namespace NetThread

variable {server : Server} {act : Action} {s t : NetThread}

/-! ## Commands on their way -/

/-- Who has a command that is on its way. -/
inductive Holder where
  /-- producer `k`, before it has put the command in -/
  | producer (k : Nat)
  /-- the net thread, before it has put a close request of its own in -/
  | own
  /-- the send list or the hand of `read_pipe_cb`, under this number -/
  | listed (serial : Nat)
  deriving DecidableEq

/-- The command is on its way and this holder has it. -/
def HasCommand (s : NetThread) : Holder → SendData → Prop
  | .producer k, d => ∃ p, s.producers k = some p ∧ p.notifies = false ∧ p.data = d
  | .own, d => ∃ p rest, s.pc = .requesting p rest ∧ p.notifies = false ∧ p.data = d
  | .listed serial, d => (serial, d) ∈ inHand s.pc ++ s.sendlist.queue

/-- The connection for which the net thread may begin a close request of its own. -/
def requestsFor (s : NetThread) : Action → Option ConnectorPtr
  | .readEvent uid .. =>
    match s.pc, s.connectorList.get uid with
    | .waiting, .ok (some conn) => some conn
    | _, _ => none
  | .net _ =>
    match s.pc with
    | .ticking (e :: _) => s.connectorList.first e.value
    | _ => none
  | _ => none

/-- The holder whose command goes into the send list. -/
def inserts (s : NetThread) : Action → Option Holder
  | .push k =>
    match s.producers k with
    | some p => if p.phase = .inserting then some (.producer k) else none
    | none => none
  | .net _ =>
    match s.pc with
    | .requesting p _ => if p.phase = .inserting then some .own else none
    | _ => none
  | _ => none

/-- The number of the command and the connection it is carried out on. -/
def carriesOut (s : NetThread) : Action → Option (Nat × ConnectorPtr)
  | .net _ =>
    match s.pc with
    | .handling serial d =>
      match s.target d with
      | .ok (some conn) => some (serial, conn)
      | _ => none
    | _ => none
  | _ => none

/-- A net thread with the connection that each command on its way was issued for, and, for the
commands carried out so far, the connections they were issued for and carried out on. -/
structure Issued where
  net : NetThread
  issuedFor : Holder → ConnectorPtr
  applied : List (ConnectorPtr × ConnectorPtr)

/-- What happens next. -/
inductive IssuedAction where
  /-- producer `k` begins a call with the id, ip and port of a connection -/
  | call (k : Nat) (call : Call) (conn : ConnectorPtr)
  /-- any other step -/
  | other (act : Action)

/-- The command a holder has is issued for a connection. -/
def assign (issuedFor : Holder → ConnectorPtr) (x : Holder) (conn : ConnectorPtr) :
    Holder → ConnectorPtr :=
  fun y => if y = x then conn else issuedFor y

/-- The connections the commands on their way are issued for, after a step. -/
def nextIssued (w : Issued) (act : Action) : Holder → ConnectorPtr :=
  match w.net.requestsFor act with
  | some conn => assign w.issuedFor .own conn
  | none =>
    match w.net.inserts act with
    | some x => assign w.issuedFor (.listed w.net.acceptedNum) (w.issuedFor x)
    | none => w.issuedFor

/-- One step. -/
def issuedStep (server : Server) (w : Issued) : IssuedAction → Except Fault Issued
  | .call k call conn =>
    if conn < w.net.nextConnector ∧
        call.command.all (fun d => decide (d.ident = (w.net.connectors conn).ident)) then
      .ok { w with
        net := w.net.beginCall k call
        issuedFor := if (w.net.producers k).isNone then assign w.issuedFor (.producer k) conn
          else w.issuedFor }
    else .ok w
  | .other (.call ..) => .ok w  -- with its connection above
  | .other act =>
    match step server w.net act with
    | .error e => .error e
    | .ok t =>
      .ok
        { net := t
          issuedFor := nextIssued w act
          applied := w.applied ++ ((w.net.carriesOut act).map fun x =>
            (w.issuedFor (.listed x.1), x.2)).toList }

/-- A net thread whose list has `size` slots. -/
def initSized (server : Server) (size maxSize : Nat) (now : Int) (connectors : Connectors) :
    NetThread :=
  { init server maxSize now connectors with
    connectorList := ConnectorList.init size (UInt32.ofNat server.index) now }

def Issued.init (server : Server) (size maxSize : Nat) (now : Int) (connectors : Connectors) :
    Issued :=
  ⟨initSized server size maxSize now connectors, fun _ => 0, []⟩

/-- Every command was carried out on the connection it was issued for. -/
def AllOwn (w : Issued) : Prop := ∀ x ∈ w.applied, x.1 = x.2

/-- A later connection has the name of this one. -/
def HasTwin (s : NetThread) (a : ConnectorPtr) : Prop :=
  ∃ b, a < b ∧ b < s.nextConnector ∧ (s.connectors b).ident = (s.connectors a).ident

/-- No connection gets the id, ip and port that a command on its way names, and no command is
issued for a connection when a later one has its id, ip and port. -/
def NoTwin (w : Issued) : IssuedAction → Prop
  | .call _ _ conn => ¬ w.net.HasTwin conn
  | .other act =>
    ∀ connfd ip port, act.accepts = some (connfd, ip, port) →
      ∀ uid list, w.net.connectorList.getUniqId = .ok (uid, list) →
        ∀ x d, w.net.HasCommand x d → d.ident ≠ ⟨uid, ip, port⟩

/-! ## What a step does to the commands on their way -/

/-- Where a command that is on its way after a step was before it. -/
inductive Origin (s : NetThread) (act : Action) (x : Holder) (d : SendData) : Prop where
  /-- the same holder had it -/
  | kept (h : s.HasCommand x d)
  /-- a producer has begun its call -/
  | begun (k : Nat) (call : Call) (hact : act = .call k call) (hx : x = .producer k)
      (hidle : s.producers k = none) (hcmd : call.command = some d)
  /-- the net thread has begun a close request -/
  | requested (conn : ConnectorPtr) (hconn : s.requestsFor act = some conn) (hx : x = .own)
      (hident : d.ident = (s.connectors conn).ident)
  /-- it has been put into the list -/
  | inserted (y : Holder) (hy : s.inserts act = some y) (hx : x = .listed s.acceptedNum)
      (h : s.HasCommand y d)

/-- Nobody gets a command that was not on its way. -/
def SameCommands (s t : NetThread) : Prop := ∀ x d, t.HasCommand x d → s.HasCommand x d

/-- The net thread has no command: neither in its hand nor in a close request of its own. -/
def HandsEmpty (pc : NetPc) : Prop := inHand pc = [] ∧ ∀ p rest, pc ≠ .requesting p rest

/-- What puts the net thread's own commands away, and leaves the others alone. -/
theorem sameCommands_of_empty (hlist : t.sendlist = s.sendlist)
    (hproducers : t.producers = s.producers) (hpc : HandsEmpty t.pc) : SameCommands s t := by
  intro x d hx
  cases x with
  | producer k =>
    obtain ⟨p, hp, hrest⟩ := hx
    exact ⟨p, (congrFun hproducers k).symm.trans hp, hrest⟩
  | own =>
    obtain ⟨p, rest, hp, -⟩ := hx
    exact absurd hp (hpc.2 p rest)
  | listed serial =>
    simp only [HasCommand, hpc.1, List.nil_append, hlist] at hx
    exact List.mem_append_right _ hx

theorem handsEmpty_waiting : HandsEmpty .waiting := ⟨rfl, fun _ _ h => NetPc.noConfusion h⟩

theorem handsEmpty_draining : HandsEmpty .draining := ⟨rfl, fun _ _ h => NetPc.noConfusion h⟩

theorem handsEmpty_closing (stage : CloseStage) (conn : ConnectorPtr) (uid : UInt32) :
    HandsEmpty (.closing stage conn uid) := ⟨rfl, fun _ _ h => NetPc.noConfusion h⟩

theorem handsEmpty_ticking (rest : List (MultimapEntry Int Nat)) : HandsEmpty (.ticking rest) :=
  ⟨rfl, fun _ _ h => NetPc.noConfusion h⟩

theorem handsEmpty_resume (rest : Option (List (MultimapEntry Int Nat))) :
    HandsEmpty (resume rest) := by
  cases rest with
  | none => exact handsEmpty_waiting
  | some rest => exact handsEmpty_ticking rest

theorem origin_of_empty {x : Holder} {d : SendData} (hx : t.HasCommand x d)
    (hlist : t.sendlist = s.sendlist) (hproducers : t.producers = s.producers)
    (hpc : HandsEmpty t.pc) : Origin s act x d :=
  .kept (sameCommands_of_empty hlist hproducers hpc x d hx)

/-- A close request names its connection. -/
theorem AfterRequest.names {c : Connector} {reason : CloseConnectorReason}
    {rest : Option (List (MultimapEntry Int Nat))} {pc : NetPc} (h : AfterRequest c reason rest pc) :
    HandsEmpty pc ∨ ∃ d, pc = .requesting ⟨d, .testing⟩ rest ∧ d.ident = c.ident := by
  cases h with
  | resumed => exact .inl (handsEmpty_resume rest)
  | requesting hcmd =>
    unfold Call.command at hcmd
    dsimp only at hcmd
    split at hcmd
    · cases hcmd
      exact .inr ⟨_, rfl, rfl⟩
    · cases hcmd

/-- After a step that may begin a close request. -/
theorem origin_of_request {x : Holder} {d : SendData} (hx : t.HasCommand x d)
    (hlist : t.sendlist = s.sendlist) (hproducers : t.producers = s.producers)
    {conn : ConnectorPtr} (hconn : s.requestsFor act = some conn) {c : Connector}
    {reason : CloseConnectorReason} {rest : Option (List (MultimapEntry Int Nat))}
    (hafter : AfterRequest c reason rest t.pc) (hident : c.ident = (s.connectors conn).ident) :
    Origin s act x d := by
  rcases hafter.names with hempty | ⟨d', hpc, hd'⟩
  · exact origin_of_empty hx hlist hproducers hempty
  · cases x with
    | producer k =>
      obtain ⟨p, hp, hrest⟩ := hx
      exact .kept ⟨p, (congrFun hproducers k).symm.trans hp, hrest⟩
    | own =>
      obtain ⟨p, rest', hp, -, rfl⟩ := hx
      cases hpc.symm.trans hp
      exact .requested conn hconn rfl (hd'.trans hident)
    | listed serial =>
      simp only [HasCommand, hpc, inHand, List.nil_append, hlist] at hx
      exact .kept (List.mem_append_right _ hx)

/-- A producer begins a call. -/
theorem origin_begun {k : Nat} {call : Call} {d' : SendData} (hfree : s.producers k = none)
    (hcmd : call.command = some d') {x : Holder} {d : SendData}
    (hx : (s.setProducer k (some ⟨d', .testing⟩)).HasCommand x d) : Origin s (.call k call) x d := by
  cases x with
  | producer j =>
    obtain ⟨p, hp, hnot, hd⟩ := hx
    by_cases hjk : j = k
    · subst hjk
      cases (if_pos rfl).symm.trans hp
      exact .begun j call rfl rfl hfree (hcmd.trans (congrArg some hd))
    · exact .kept ⟨p, (if_neg hjk).symm.trans hp, hnot, hd⟩
  | own => exact .kept hx
  | listed serial => exact .kept hx

/-- A step of a call changes no other producer. -/
theorem Pushes.producers_eq {p : Pushing} {next : Option Pushing} (h : Pushes s p t next) :
    t.producers = s.producers := by
  cases h with
  | _ => rfl

/-- A call that goes on has the command it had. -/
theorem Pushes.data_eq {p p' : Pushing} (h : Pushes s p t (some p')) (hnot : p'.notifies = false) :
    p.notifies = false ∧ p'.data = p.data := by
  cases h with
  | refused hphase | passed hphase | woken hphase =>
    exact ⟨notifies_of_phase hphase (by decide), rfl⟩
  | inserted => cases hnot

/-- A step of a call puts its command in, or leaves the list alone. -/
theorem Pushes.queue_eq {p : Pushing} {next : Option Pushing} (h : Pushes s p t next) :
    t.sendlist.queue = s.sendlist.queue ∨
      p.phase = .inserting ∧ t.sendlist.queue = s.sendlist.queue ++ [(s.acceptedNum, p.data)] := by
  cases h with
  | inserted hphase => exact .inr ⟨hphase, rfl⟩
  | _ => exact .inl rfl

/-- What is in the list after a step of a call was there before, or the call has put it in. -/
theorem Pushes.origin_listed {p : Pushing} {next : Option Pushing} (h : Pushes s p t next)
    {y : Holder} (hy : p.phase = .inserting → s.inserts act = some y ∧ s.HasCommand y p.data)
    {serial : Nat} {d : SendData} (hmem : (serial, d) ∈ t.sendlist.queue) :
    Origin s act (.listed serial) d := by
  rcases h.queue_eq with hqueue | ⟨hphase, hqueue⟩
  · rw [hqueue] at hmem
    exact .kept (List.mem_append_right _ hmem)
  · rw [hqueue] at hmem
    rcases List.mem_append.mp hmem with hold | hnew
    · exact .kept (List.mem_append_right _ hold)
    · cases List.mem_singleton.mp hnew
      obtain ⟨hinserts, hcommand⟩ := hy hphase
      exact .inserted y hinserts rfl hcommand

/-- A producer's step. -/
theorem origin_pushed {k : Nat} {p : Pushing} {next : Option Pushing} (hk : s.producers k = some p)
    (hpush : Pushes s p t next) {x : Holder} {d : SendData}
    (hx : (t.setProducer k next).HasCommand x d) : Origin s (.push k) x d := by
  cases x with
  | producer j =>
    obtain ⟨q, hq, hnot, hd⟩ := hx
    -- the pushing thread keeps its command until it is in the list
    by_cases hjk : j = k
    · subst hjk
      cases (if_pos rfl).symm.trans hq
      obtain ⟨hnot', hdata⟩ := hpush.data_eq hnot
      exact .kept ⟨p, hk, hnot', hdata.symm.trans hd⟩
    · refine .kept ⟨q, ?_, hnot, hd⟩
      rw [← hpush.producers_eq]
      exact (if_neg hjk).symm.trans hq
  | own =>
    obtain ⟨q, rest, hq, hrest⟩ := hx
    exact .kept ⟨q, rest, hpush.pc_eq.symm.trans hq, hrest⟩
  | listed serial =>
    rcases List.mem_append.mp hx with hhand | hlist
    · refine .kept (List.mem_append_left _ ?_)
      rw [← hpush.pc_eq]
      exact hhand
    -- what is in the list was there, or comes from the pushing thread
    · refine hpush.origin_listed (y := .producer k) (fun hphase => ⟨?_, p, hk, ?_, rfl⟩) hlist
      · simp only [inserts, hk, hphase, if_true]
      · exact notifies_of_phase hphase (by decide)

theorem inHand_afterPush (rest : Option (List (MultimapEntry Int Nat))) (next : Option Pushing) :
    inHand (afterPush rest next) = [] := by
  cases next with
  | none => exact (handsEmpty_resume rest).1
  | some p => rfl

/-- A step of the net thread's own call. -/
theorem origin_requested {p : Pushing} {rest : Option (List (MultimapEntry Int Nat))}
    {next : Option Pushing} (hpc : s.pc = .requesting p rest) (hpush : Pushes s p t next)
    {answer : WriteAnswer} {x : Holder} {d : SendData}
    (hx : ({ t with pc := afterPush rest next } : NetThread).HasCommand x d) :
    Origin s (.net answer) x d := by
  cases x with
  | producer k =>
    obtain ⟨q, hq, hrest⟩ := hx
    exact .kept ⟨q, (congrFun hpush.producers_eq k).symm.trans hq, hrest⟩
  | own =>
    obtain ⟨q, rest', hq, hnot, hd⟩ := hx
    -- when the push is over the thread's hand is empty
    cases next with
    | none => exact absurd hq ((handsEmpty_resume rest).2 q rest')
    | some p' =>
      cases hq
      obtain ⟨hnot', hdata⟩ := hpush.data_eq hnot
      exact .kept ⟨p, rest, hpc, hnot', hdata.symm.trans hd⟩
  | listed serial =>
    rcases List.mem_append.mp hx with hhand | hlist
    · rw [inHand_afterPush] at hhand
      cases hhand
    -- what is in the list was there, or comes from this thread
    · refine hpush.origin_listed (y := .own) (fun hphase => ⟨?_, p, rest, hpc, ?_, rfl⟩) hlist
      · simp only [inserts, hpc, hphase, if_true]
      · exact notifies_of_phase hphase (by decide)

/-- The next command goes from the list into the hand. -/
theorem sameCommands_popped {serial : Nat} {d : SendData} {rest : ThreadQueue (Nat × SendData)}
    (hqueue : s.sendlist.queue = (serial, d) :: rest.queue) :
    SameCommands s { s with sendlist := rest, pc := .handling serial d } := by
  intro x d' hx
  cases x with
  | producer k => exact hx
  | own =>
    obtain ⟨p, rest', hp, -⟩ := hx
    cases hp
  | listed n =>
    refine List.mem_append_right _ ?_
    rw [hqueue]
    exact hx

/-- **Step**: where each command on its way comes from. -/
theorem step_origin (h : step server s act = .ok t) {x : Holder} {d : SendData}
    (hx : t.HasCommand x d) : Origin s act x d := by
  cases step_moves h with
  | idle | waits | accepted | added | registered | unregistered | readOn => exact .kept hx
  | begun hfree hcmd => exact origin_begun hfree hcmd hx
  | pushed hk hpush => exact origin_pushed hk hpush hx
  | requested hpc hpush => exact origin_requested hpc hpush hx
  | popped hpc hqueue => exact .kept (sameCommands_popped hqueue x d hx)
  | @readEnded uid answers now conn c events pc hpc hget hloop hafter =>
    have hpeer := (readLoop_ok hloop (by simp)).1
    have hconn : s.requestsFor (.readEvent uid answers now) = some conn := by
      simp only [requestsFor, hpc, hget]
    exact origin_of_request hx rfl rfl hconn hafter (congrArg Peer.ident hpeer)
  | @timedOut answer e rest conn pc hpc hfirst hlisten hafter =>
    have hconn : s.requestsFor (.net answer) = some conn := by
      simp only [requestsFor, hpc, hfirst]
    exact origin_of_request hx rfl rfl hconn hafter rfl
  -- in all other steps the net thread puts away what it had
  | drained | checked =>
    exact origin_of_empty hx rfl rfl handsEmpty_waiting
  | notified | missed | sent | modified | released =>
    exact origin_of_empty hx rfl rfl handsEmpty_draining
  | calledBack | stopped | shut | removed =>
    exact origin_of_empty hx rfl rfl (handsEmpty_closing ..)
  | ticked | passedOver =>
    exact origin_of_empty hx rfl rfl (handsEmpty_ticking _)

/-! ## Names and connections -/

variable {w : Issued}

/-- The command names this connection, and no later one has its name. -/
structure Names (s : NetThread) (d : SendData) (a : ConnectorPtr) : Prop where
  made : a < s.nextConnector
  ident : d.ident = (s.connectors a).ident
  latest : ¬ s.HasTwin a

/-- What runs without twins keep. -/
structure IssuedOk (w : Issued) : Prop where
  wf : w.net.Wf
  ordered : Connections.Ordered w.net.abs
  /-- the holder of an id is the latest connection that got it -/
  seated : ∀ b, w.net.Seated b → ∀ c, b < c → c < w.net.nextConnector →
    (w.net.connectors c).id ≠ (w.net.connectors b).id
  commands : ∀ x d, w.net.HasCommand x d → w.net.Names d (w.issuedFor x)
  own : AllOwn w

/-- A command is carried out on the connection that has its name. -/
theorem IssuedOk.carriesOut (hok : IssuedOk w) {serial : Nat} {conn : ConnectorPtr}
    (h : w.net.carriesOut act = some (serial, conn)) : w.issuedFor (.listed serial) = conn := by
  unfold NetThread.carriesOut at h
  split at h
  · split at h
    · rename_i serial' d hpc
      split at h
      · rename_i conn' htarget
        cases h
        -- the command is in the thread's hand
        have hcommand : w.net.HasCommand (.listed serial) d := by
          refine List.mem_append_left _ ?_
          rw [hpc]
          exact List.mem_singleton_self _
        have hnames := hok.commands _ d hcommand
        obtain ⟨⟨hlisted, -, hident⟩, -, -⟩ := hok.wf.isFor_of_target htarget
        -- the connection it finds has the name of the one it was issued for
        have hsame : (w.net.connectors conn).ident =
            (w.net.connectors (w.issuedFor (.listed serial))).ident := hident.trans hnames.ident
        rcases Nat.lt_trichotomy (w.issuedFor (.listed serial)) conn with hlt | heq | hgt
        -- the listed connection would be a later one with the same name
        · have hmade := hok.wf.made_of_seated (.inl hlisted)
          exact absurd ⟨conn, hlt, hmade, hsame⟩ hnames.latest
        · exact heq
        -- the listed connection would not be the latest with its id
        · have hid := congrArg Ident.uid hsame
          exact absurd hid.symm (hok.seated conn (.inl hlisted) _ hgt hnames.made)
      · cases h
    · cases h
  · cases h

/-- A name stays right, unless a new connection gets it. -/
theorem Names.step {d : SendData} {a : ConnectorPtr} (hnames : s.Names d a) (hwf : s.Wf)
    (h : step server s act = .ok t)
    (hnew : ∀ connfd ip port, act.accepts = some (connfd, ip, port) → ∀ uid list,
      s.connectorList.getUniqId = .ok (uid, list) → d.ident ≠ ⟨uid, ip, port⟩) : t.Names d a := by
  obtain ⟨hmade, hident, -⟩ := step_kept hwf h hnames.made
  refine ⟨hmade, hnames.ident.trans hident.symm, ?_⟩
  rintro ⟨b, hab, hb, hsame⟩
  have hold : b < s.nextConnector → False := by
    intro hb
    refine hnames.latest ⟨b, hab, hb, ?_⟩
    rw [← (step_kept hwf h hb).2.1, hsame, hident]
  rcases step_made hwf h with hmade | ⟨connfd, ip, port, haccepts, -, -, hmade⟩
  · rw [hmade.next] at hb
    exact hold hb
  · by_cases hbnew : b = s.nextConnector
    · subst hbnew
      obtain ⟨list, huid⟩ := hmade.uid
      apply hnew connfd ip port haccepts _ list huid
      rw [hnames.ident, ← hident, ← hsame, Connector.ident, hmade.ip, hmade.port]
    · rw [hmade.next] at hb
      exact hold (Nat.lt_of_le_of_ne (Nat.le_of_lt_succ hb) hbnew)

/-- The holder of an id stays the latest connection that got it. -/
theorem seated_step (hwf : s.Wf) (h : step server s act = .ok t)
    (hseated : ∀ b, s.Seated b → ∀ c, b < c → c < s.nextConnector →
      (s.connectors c).id ≠ (s.connectors b).id) (b : ConnectorPtr) (hb : t.Seated b)
    (c : ConnectorPtr) (hbc : b < c) (hc : c < t.nextConnector) :
    (t.connectors c).id ≠ (t.connectors b).id := by
  -- ids do not change
  have hkept : ∀ a, a < s.nextConnector → (t.connectors a).id = (s.connectors a).id :=
    fun a ha => congrArg Ident.uid (step_kept hwf h ha).2.1
  -- two connections made before differ as they did
  have hold : c < s.nextConnector → (t.connectors c).id ≠ (t.connectors b).id := by
    intro hc
    have hb' := hbc.trans hc
    rw [hkept c hc, hkept b hb']
    exact hseated b (step_seated hwf h hb' hb) c hbc hc
  rcases step_made hwf h with hmade | ⟨connfd, ip, port, haccepts, -, -, hmade⟩
  · rw [hmade.next] at hc
    exact hold hc
  · by_cases hcnew : c = s.nextConnector
    -- the new id is not that of a listed connection, and no other is about to be added
    · subst hcnew
      rw [hkept b hbc]
      rcases step_seated hwf h hbc hb with hlisted | hnumbered
      · exact hmade.fresh b hlisted
      · rw [hmade.idle] at hnumbered
        cases hnumbered
    · rw [hmade.next] at hc
      exact hold (Nat.lt_of_le_of_ne (Nat.le_of_lt_succ hc) hcnew)

theorem requestsFor_spec {conn : ConnectorPtr} (hwf : s.Wf) (h : s.requestsFor act = some conn) :
    s.isListed conn = true ∧ (∀ d, ¬ s.HasCommand .own d) := by
  unfold requestsFor at h
  split at h
  · split at h
    · rename_i hpc hget
      cases h
      refine ⟨hwf.listed_of_first (ConnectorList.get_eq_some.mp hget).2, ?_⟩
      rintro d ⟨p, rest, hp, -⟩
      rw [hpc] at hp
      cases hp
    · cases h
  · split at h
    · rename_i hpc
      refine ⟨hwf.listed_of_first h, ?_⟩
      rintro d ⟨p, rest, hp, -⟩
      rw [hpc] at hp
      cases hp
    · cases h
  · cases h

theorem requestsFor_of_inserts {x : Holder} (h : s.inserts act = some x) :
    s.requestsFor act = none := by
  unfold inserts at h
  split at h
  · rfl
  · split at h
    · rename_i hpc
      simp only [requestsFor, hpc]
    · cases h
  · cases h

/-- The connection a command was issued for stays the same while it has the same holder. -/
theorem IssuedOk.nextIssued_kept (hok : IssuedOk w) {x : Holder} {d : SendData}
    (hx : w.net.HasCommand x d) : nextIssued w act x = w.issuedFor x := by
  cases hrequests : w.net.requestsFor act with
  | some conn =>
    simp only [nextIssued, hrequests]
    apply if_neg
    rintro rfl
    exact (requestsFor_spec hok.wf hrequests).2 d hx
  | none =>
    cases hinserts : w.net.inserts act with
    | some y =>
      simp only [nextIssued, hrequests, hinserts]
      apply if_neg
      rintro rfl
      exact absurd (hok.ordered.serials_lt _ hx) (Nat.lt_irrefl _)
    | none => simp only [nextIssued, hrequests, hinserts]

/-- **Step**: without twins, commands keep naming the connections they were issued for. -/
theorem IssuedOk.other (hok : IssuedOk w) (hact : ∀ k call, act ≠ .call k call)
    (hno : NoTwin w (.other act)) (h : step server w.net act = .ok t) :
    IssuedOk ⟨t, nextIssued w act, w.applied ++ ((w.net.carriesOut act).map fun x =>
      (w.issuedFor (.listed x.1), x.2)).toList⟩ := by
  obtain ⟨events, hsim⟩ := step_simulates hok.wf h
  have hstep : ∀ x d a, w.net.HasCommand x d → w.net.Names d a → t.Names d a := by
    intro x d a hx hnames
    refine hnames.step hok.wf h ?_
    intro connfd ip port haccepts uid list huid
    exact hno connfd ip port haccepts uid list huid x d hx
  refine ⟨hsim.wf, hok.ordered.step hsim.step, seated_step hok.wf h hok.seated, ?_, ?_⟩
  · intro x d hx
    change t.Names d (nextIssued w act x)
    cases step_origin h hx with
    | kept hold =>
      rw [hok.nextIssued_kept hold]
      exact hstep x d _ hold (hok.commands x d hold)
    | begun k call heq => exact absurd heq (hact k call)
    | requested conn hconn hx hident =>
      subst hx
      have hfor : nextIssued w act .own = conn := by
        simp only [nextIssued, hconn, assign, if_true]
      obtain ⟨hlisted, -⟩ := requestsFor_spec hok.wf hconn
      have hmade := hok.wf.made_of_seated (.inl hlisted)
      have hnames : w.net.Names d conn := by
        refine ⟨hmade, hident, ?_⟩
        rintro ⟨b, hlt, hb, hsame⟩
        exact hok.seated conn (.inl hlisted) b hlt hb (congrArg Ident.uid hsame)
      rw [hfor]
      refine hnames.step hok.wf h ?_
      -- a step that begins a close request accepts nothing
      intro connfd ip port haccepts
      cases act with
      | accept => cases hconn
      | _ => cases haccepts
    | inserted y hy hx hold =>
      subst hx
      have hfor : nextIssued w act (.listed w.net.acceptedNum) = w.issuedFor y := by
        simp only [nextIssued, requestsFor_of_inserts hy, hy, assign, if_true]
      rw [hfor]
      exact hstep y d _ hold (hok.commands y d hold)
  · intro x hx
    rcases List.mem_append.mp hx with hold | hnew
    · exact hok.own x hold
    · cases hcarries : w.net.carriesOut act with
      | none =>
        rw [hcarries] at hnew
        cases hnew
      | some y =>
        rw [hcarries] at hnew
        cases List.mem_singleton.mp hnew
        exact hok.carriesOut hcarries

/-- A producer begins a call for a connection without a twin. -/
theorem IssuedOk.call (server : Server) (hok : IssuedOk w) {k : Nat} {call : Call} {conn : ConnectorPtr}
    (hmade : conn < w.net.nextConnector)
    (hident : call.command.all (fun d => decide (d.ident = (w.net.connectors conn).ident)) = true)
    (hno : ¬ w.net.HasTwin conn) :
    IssuedOk { w with
      net := w.net.beginCall k call
      issuedFor := if (w.net.producers k).isNone then assign w.issuedFor (.producer k) conn
        else w.issuedFor } := by
  have hstep : step server w.net (.call k call) = .ok (w.net.beginCall k call) := rfl
  obtain ⟨events, hsim⟩ := step_simulates hok.wf hstep
  have hkeeps : ∀ d a, w.net.Names d a → (w.net.beginCall k call).Names d a := by
    intro d a hnames
    refine hnames.step hok.wf hstep ?_
    intro _ _ _ haccepts
    cases haccepts
  refine ⟨hsim.wf, hok.ordered.step hsim.step, seated_step hok.wf hstep hok.seated, ?_, hok.own⟩
  intro x d hx
  dsimp only
  cases step_origin hstep hx with
  | kept hold =>
    have hsame : (if (w.net.producers k).isNone then assign w.issuedFor (.producer k) conn
        else w.issuedFor) x = w.issuedFor x := by
      split
      · rename_i hidle
        apply if_neg
        rintro rfl
        -- a producer in no call has no command
        obtain ⟨p, hp, -⟩ := hold
        rw [hp] at hidle
        cases hidle
      · rfl
    rw [hsame]
    exact hkeeps d _ (hok.commands x d hold)
  | begun k' call' hact hx hidle hcmd =>
    cases hact
    subst hx
    have hfor : (if (w.net.producers k).isNone then assign w.issuedFor (.producer k) conn
        else w.issuedFor) (.producer k) = conn := by
      rw [hidle]
      exact if_pos rfl
    rw [hfor]
    rw [hcmd] at hident
    exact hkeeps d conn ⟨hmade, of_decide_eq_true hident, hno⟩
  | requested conn' hconn => cases hconn
  | inserted y hy => cases hy

theorem issuedStep_ok {act : IssuedAction} {w' : Issued} (hok : IssuedOk w) (hno : NoTwin w act)
    (h : issuedStep server w act = .ok w') : IssuedOk w' := by
  cases act with
  | call k call conn =>
    simp only [issuedStep] at h
    split at h
    · rename_i hguard
      cases h
      exact hok.call server hguard.1 hguard.2 hno
    · cases h
      exact hok
  | other act =>
    by_cases hact : ∃ k call, act = .call k call
    · obtain ⟨k, call, rfl⟩ := hact
      cases h
      exact hok
    · have hact' : ∀ k call, act ≠ .call k call := fun k call heq => hact ⟨k, call, heq⟩
      -- any other action carries the commands on and issues none
      have hstep : issuedStep server w (.other act) =
          match step server w.net act with
          | .error e => .error e
          | .ok t => .ok ⟨t, nextIssued w act, w.applied ++ ((w.net.carriesOut act).map fun x =>
            (w.issuedFor (.listed x.1), x.2)).toList⟩ := by
        cases act with
        | call k call => exact absurd rfl (hact' k call)
        | _ => rfl
      rw [hstep] at h
      split at h
      · cases h
      · rename_i t ht
        cases h
        exact hok.other hact' hno ht

theorem wf_initSized {size : Nat} (hsize : size < 2 ^ 20) (server : Server) (maxSize : Nat)
    (now : Int) (connectors : Connectors) :
    (initSized server size maxSize now connectors).Wf :=
  wf_initWith hsize server maxSize now connectors

theorem issuedOk_init {size : Nat} (hsize : size < 2 ^ 20) (server : Server) (maxSize : Nat)
    (now : Int) (connectors : Connectors) :
    IssuedOk (Issued.init server size maxSize now connectors) := by
  have hwf := wf_initSized hsize server maxSize now connectors
  -- no connection is seated in the initial state, and there is no command
  have hnone : ∀ b, ¬ (initSized server size maxSize now connectors).Seated b := by
    intro b hb
    exact absurd (hwf.made_of_seated hb) (Nat.not_lt_zero b)
  refine ⟨hwf, ?_, fun b hb => absurd hb (hnone b), ?_, fun _ h => nomatch h⟩
  · exact
      { known := fun a ha => absurd (.inl ha) (hnone a)
        unique := fun a _ _ _ ha => absurd (.inl ha) (hnone a)
        numbered := fun a ha => nomatch ha
        serials := List.Pairwise.nil
        serials_lt := fun _ h => nomatch h }
  · intro x d hx
    cases x with
    | producer k =>
      obtain ⟨p, hp, -⟩ := hx
      cases hp
    | own =>
      obtain ⟨p, rest, hp, -⟩ := hx
      cases hp
    | listed serial => cases hx

/-- **Commands reach their own**: for every number of slots, in every run in which no connection
gets the id, ip and port that a command on its way names and no command is issued for a connection
when a later one has its name, every command is carried out on the connection it was issued
for. -/
theorem commands_reach_their_own (server : Server) (size : Nat) (hsize : size < 2 ^ 20)
    (maxSize : Nat) (now : Int) (connectors : Connectors) (as : List IssuedAction) (w : Issued)
    (hno : Along (issuedStep server) NoTwin (Issued.init server size maxSize now connectors) as)
    (hrun : run (issuedStep server) (Issued.init server size maxSize now connectors) as = .ok w) :
    AllOwn w := by
  have hok : IssuedOk w := run_invariant (fun _ _ _ hw hP h => issuedStep_ok hw hP h)
    (issuedOk_init hsize server maxSize now connectors) hno hrun
  exact hok.own

/-- Calls for the connection with id 1 from 1.2.3.4:80. -/
def sendFirst : Call := .send (ascii "1.2.3.4") 80 1 [120]
def closeFirst : Call := .closeConnector (ascii "1.2.3.4") 80 1 7 .serverClosed

/-- A handler sends one byte on a new connection. -/
def sendOnFirst : List IssuedAction :=
  opening.map .other ++ [.call 1 sendFirst 0, .other (.push 1), .other (.push 1), .other (.push 1),
    .other .notified, .other (.net (.took 1)), .other (.net (.took 1))]

set_option maxRecDepth 20000 in
/-- One slot, and one connection at a time. -/
theorem commands_reach_their_own_send :
    ∃ w, run (issuedStep soleServer)
      (Issued.init soleServer 1 ThreadQueue.defaultMaxSize 0 blankConnectors) sendOnFirst = .ok w ∧
      AllOwn w := by
  refine ⟨_, rfl, commands_reach_their_own soleServer 1 (by decide) ThreadQueue.defaultMaxSize 0
    blankConnectors sendOnFirst _ ?_ rfl⟩
  -- nothing is on its way when the connection is accepted
  refine .cons_ok ?_ rfl (.cons_ok ?_ rfl (.cons_ok ?_ rfl (.cons_ok ?_ rfl ?_)))
  · intro connfd ip port _ uid list _ x d hx
    cases x with
    | producer k => obtain ⟨p, hp, -⟩ := hx; cases hp
    | own => obtain ⟨p, rest, hp, -⟩ := hx; cases hp
    | listed serial => cases hx
  · rintro _ _ _ ⟨⟩
  · rintro _ _ _ ⟨⟩
  · rintro ⟨b, hlt, hb, -⟩
    exact absurd (Nat.lt_of_lt_of_le hlt (Nat.le_of_lt_succ hb)) (Nat.lt_irrefl 0)
  · refine .cons_ok ?_ rfl (.cons_ok ?_ rfl (.cons_ok ?_ rfl (.cons_ok ?_ rfl (.cons_ok ?_ rfl
      (.cons_ok ?_ rfl trivial)))))
    all_goals rintro _ _ _ ⟨⟩

/-- A handler begins to send on the first connection; the connection is closed, its peer connects
again from the same port and gets the slot; only now the handler's command goes into the list. -/
def sendAcrossReconnect : List IssuedAction :=
  opening.map .other ++ [.call 1 sendFirst 0, .call 0 closeFirst 0, .other (.push 0),
    .other (.push 0), .other (.push 0), .other .notified] ++
    List.replicate 7 (.other (.net (.took 1))) ++ opening.map .other ++
    [.other (.push 1), .other (.push 1), .other (.push 1), .other .notified,
      .other (.net (.took 1)), .other (.net (.took 1))]

set_option maxRecDepth 20000 in
/-- The byte for the first connection is handed out on the second. -/
theorem command_reaches_another :
    ∃ w, run (issuedStep soleServer)
      (Issued.init soleServer 1 ThreadQueue.defaultMaxSize 0 blankConnectors)
      sendAcrossReconnect = .ok w ∧ (0, 1) ∈ w.applied ∧ .output 1 (some [120]) ∈ w.net.log ∧
      ¬ AllOwn w := by
  refine ⟨_, rfl, ?_, ?_, ?_⟩
  · exact List.mem_cons_of_mem _ (List.mem_singleton_self _)
  · decide
  · intro hown
    have hsame := hown (0, 1) (List.mem_cons_of_mem _ (List.mem_singleton_self _))
    cases hsame

end NetThread

end Sails.Net
