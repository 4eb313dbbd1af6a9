import Sails.Net.Dispatch

/-!
# The order of the packets of a connection

In run mode 2 the packets of a connection pass through one net thread and one handle thread.

- `parsedOf`, `insertedOf`, `handledOf`: what the log says of a connection
- `OrderOk`: what a connection's net thread has in its hand was parsed last, and what was inserted
  is what was handled and what waits, in this order
- `connection_order`: the packets of a connection are handled in the order in which they were
  parsed, each once at most, and by one handle thread
-/

namespace Sails.Net

open TransitionRun
open CMemory
open Sails.Base

namespace Dispatch

variable {server : DispatchServer} {w w' : Dispatch} {k i : Nat} {conn c : ConnectorPtr}
  {r : RecordPtr} {log : List DispatchEvent} {e : DispatchEvent}

/-! ## The packets of a connection in the log -/

/-- The record made for a packet of the connection. -/
def parsedEvent (c : ConnectorPtr) : DispatchEvent → Option RecordPtr
  | .parsed conn _ r => if conn = c then some r else none
  | _ => none

def insertedEvent (c : ConnectorPtr) : DispatchEvent → Option RecordPtr
  | .inserted _ conn r => if conn = c then some r else none
  | _ => none

def handledEvent (c : ConnectorPtr) : DispatchEvent → Option RecordPtr
  | .handled _ conn r => if conn = c then some r else none
  | _ => none

/-- The packets parsed from the connection, in order. -/
def parsedOf (c : ConnectorPtr) (log : List DispatchEvent) : List RecordPtr :=
  log.filterMap (parsedEvent c)

/-- Those whose insertion has succeeded, in the order of the insertions. -/
def insertedOf (c : ConnectorPtr) (log : List DispatchEvent) : List RecordPtr :=
  log.filterMap (insertedEvent c)

/-- Those passed to `handle`, in the order of the calls. -/
def handledOf (c : ConnectorPtr) (log : List DispatchEvent) : List RecordPtr :=
  log.filterMap (handledEvent c)

/-- The event is about nothing but memory. -/
def Quiet : DispatchEvent → Prop
  | .refused _ | .deleted _ | .released .. => True
  | _ => False

/-- The log has only such news. -/
def QuietLog (w w' : Dispatch) : Prop := ∃ events, w'.log = w.log ++ events ∧ ∀ e ∈ events, Quiet e

theorem QuietLog.of_eq (h : w'.log = w.log) : QuietLog w w' :=
  ⟨[], by rw [h, List.append_nil], fun _ h => nomatch h⟩

theorem filterMap_quiet {f : DispatchEvent → Option RecordPtr} (hf : ∀ e, Quiet e → f e = none)
    (h : QuietLog w w') : w'.log.filterMap f = w.log.filterMap f := by
  obtain ⟨events, hlog, hquiet⟩ := h
  have hnone : events.filterMap f = [] :=
    List.filterMap_eq_nil_iff.mpr fun e he => hf e (hquiet e he)
  rw [hlog, List.filterMap_append, hnone, List.append_nil]

theorem QuietLog.parsedOf (h : QuietLog w w') (c : ConnectorPtr) :
    parsedOf c w'.log = parsedOf c w.log :=
  filterMap_quiet (fun e he => by cases e <;> first | rfl | exact he.elim) h

theorem QuietLog.insertedOf (h : QuietLog w w') (c : ConnectorPtr) :
    insertedOf c w'.log = insertedOf c w.log :=
  filterMap_quiet (fun e he => by cases e <;> first | rfl | exact he.elim) h

theorem QuietLog.handledOf (h : QuietLog w w') (c : ConnectorPtr) :
    handledOf c w'.log = handledOf c w.log :=
  filterMap_quiet (fun e he => by cases e <;> first | rfl | exact he.elim) h

theorem QuietLog.mem_handled (h : QuietLog w w') (hmem : .handled i c r ∈ w'.log) :
    .handled i c r ∈ w.log := by
  obtain ⟨events, hlog, hquiet⟩ := h
  rw [hlog] at hmem
  rcases List.mem_append.mp hmem with hold | hnew
  · exact hold
  · exact (hquiet _ hnew).elim

/-! ## The two dispatches -/

/-- The net thread of a connection. -/
def homeOf (server : DispatchServer) (c : ConnectorPtr) : Nat :=
  netThreadOfFd server.netThreadNum (server.connector c).connectFd

/-- The handle thread of a connection. -/
def laneOf (server : DispatchServer) (c : ConnectorPtr) : Nat :=
  ((server.connector c).connectFd.tmod server.handleNum).toNat

end Dispatch

/-- The connection that `ParseImp` is at work on. -/
def ParsePc.conn : ParsePc → Option ConnectorPtr
  | .idle => none
  | .parsing conn | .testing conn _ | .inserting conn _ | .failed conn _ => some conn

/-- The record on its way into a queue. -/
def ParsePc.offers : ParsePc → Option (ConnectorPtr × RecordPtr)
  | .testing conn r | .inserting conn r => some (conn, r)
  | _ => none

/-- The thread will handle nothing any more. -/
def HandlePc.stopped : HandlePc → Bool
  | .draining | .deleted | .null => true
  | _ => false

/-- The records that wait to be handled, the next one first. -/
def HandleThread.waiting (t : HandleThread) : List RecordPtr :=
  match t.pc with
  | .handling r => r :: t.handlelist.queue
  | _ => t.handlelist.queue

namespace Dispatch

variable {server : DispatchServer} {w w' : Dispatch} {k i : Nat} {conn c : ConnectorPtr}
  {r : RecordPtr} {log : List DispatchEvent} {e : DispatchEvent}

/-! ## The invariant -/

/-- What was inserted for a connection is what was handled and what waits; once the handle thread
has stopped, what was handled came first. -/
def Fifo (server : DispatchServer) (w : Dispatch) (c : ConnectorPtr) : Prop :=
  if (w.handleThreads (laneOf server c)).pc.stopped then
    handledOf c w.log <+: insertedOf c w.log
  else
    insertedOf c w.log = handledOf c w.log ++
      (w.handleThreads (laneOf server c)).waiting.filter fun r => decide ((w.records r).conn = c)

/-- What every run in run mode 2 keeps. -/
structure OrderOk (server : DispatchServer) (w : Dispatch) : Prop where
  made : ∀ c, ∀ r ∈ parsedOf c w.log, r < w.nextRecord
  increasing : ∀ c, (parsedOf c w.log).Pairwise (· < ·)
  sublist : ∀ c, (insertedOf c w.log).Sublist (parsedOf c w.log)
  /-- `ParseImp` runs on the net thread of its connection -/
  home : ∀ k conn, (w.netThreads k).conn = some conn → k = homeOf server conn
  /-- what is on its way into a queue was parsed last -/
  offered : ∀ k conn r, (w.netThreads k).offers = some (conn, r) →
    r < w.nextRecord ∧ (w.records r).conn = conn ∧
      ∃ l, parsedOf conn w.log = l ++ [r] ∧ (insertedOf conn w.log).Sublist l
  fd : ∀ r, r < w.nextRecord →
    (w.records r).value.fd = (server.connector (w.records r).conn).connectFd
  lane : ∀ i, ∀ r ∈ (w.handleThreads i).waiting, r < w.nextRecord ∧
    laneOf server (w.records r).conn = i
  fifo : ∀ c, Fifo server w c
  thread : ∀ i c r, .handled i c r ∈ w.log → i = laneOf server c

/-- No record is made, and none changes its connection or its descriptor. -/
structure SameSource (w w' : Dispatch) : Prop where
  nextRecord : w'.nextRecord = w.nextRecord
  conn : ∀ r, (w'.records r).conn = (w.records r).conn
  fd : ∀ r, (w'.records r).value.fd = (w.records r).value.fd

theorem SameSource.of_eq (hrecords : w'.records = w.records) (hnext : w'.nextRecord = w.nextRecord) :
    SameSource w w' :=
  ⟨hnext, fun _ => by rw [hrecords], fun _ => by rw [hrecords]⟩

theorem conn_of_offers {pc : ParsePc} (h : pc.offers = some (conn, r)) : pc.conn = some conn := by
  cases pc with
  | testing | inserting =>
    cases h
    rfl
  | _ => cases h

/-- A handle thread that changes loses what waits, or stops, or neither. -/
structure Waits (t t' : HandleThread) : Prop where
  subset : ∀ r ∈ t'.waiting, r ∈ t.waiting
  same : t'.pc.stopped = false → t.pc.stopped = false ∧ t'.waiting = t.waiting

theorem Waits.refl (t : HandleThread) : Waits t t := ⟨fun _ h => h, fun h => ⟨h, rfl⟩⟩

/-- A step in which nothing is parsed, inserted or handled. -/
theorem OrderOk.quiet (h : OrderOk server w) (hsource : SameSource w w') (hlog : QuietLog w w')
    (hhome : ∀ k conn, (w'.netThreads k).conn = some conn → k = homeOf server conn)
    (hoffers : ∀ k conn r, (w'.netThreads k).offers = some (conn, r) →
      (w.netThreads k).offers = some (conn, r))
    (hwaits : ∀ i, Waits (w.handleThreads i) (w'.handleThreads i)) : OrderOk server w' := by
  -- each clause speaks of the records, of the log or of what threads hold
  constructor
  case made =>
    intro c r hr
    rw [hlog.parsedOf] at hr
    rw [hsource.nextRecord]
    exact h.made c r hr
  case increasing =>
    intro c
    rw [hlog.parsedOf]
    exact h.increasing c
  case sublist =>
    intro c
    rw [hlog.parsedOf, hlog.insertedOf]
    exact h.sublist c
  case home =>
    exact hhome
  case offered =>
    intro k conn r hr
    rw [hsource.nextRecord, hsource.conn, hlog.parsedOf, hlog.insertedOf]
    exact h.offered k conn r (hoffers k conn r hr)
  case fd =>
    intro r hr
    rw [hsource.nextRecord] at hr
    rw [hsource.fd, hsource.conn]
    exact h.fd r hr
  case lane =>
    intro i r hr
    rw [hsource.nextRecord, hsource.conn]
    exact h.lane i r ((hwaits i).subset r hr)
  case fifo =>
    intro c
    have hfifo := h.fifo c
    unfold Fifo at hfifo ⊢
    rw [hlog.insertedOf, hlog.handledOf]
    simp only [hsource.conn]
    -- a thread that has stopped may have dropped what waited; its handled records are a prefix
    cases hstopped : (w'.handleThreads (laneOf server c)).pc.stopped with
    | true =>
      rw [if_pos rfl]
      split at hfifo
      · exact hfifo
      · rw [hfifo]
        exact List.prefix_append ..
    | false =>
      obtain ⟨hrunning, hsame⟩ := (hwaits (laneOf server c)).same hstopped
      rw [hrunning] at hfifo
      rw [hsame]
      exact hfifo
  case thread =>
    exact fun i c r hmem => h.thread i c r (hlog.mem_handled hmem)

/-! ## A packet is parsed, inserted, handled -/

/-- What a new event adds to what the log says of a connection. -/
theorem filterMap_event (f : DispatchEvent → Option RecordPtr) (log : List DispatchEvent)
    (e : DispatchEvent) : (log ++ [e]).filterMap f = log.filterMap f ++ (f e).toList := by
  rw [List.filterMap_append]
  cases hf : f e <;> simp [hf]

/-- `Parse` returns a packet. -/
theorem OrderOk.parse (h : OrderOk server w) (hpc : w.netThreads k = .parsing conn)
    (extdata : ExtData) : OrderOk server (Dispatch.parse server w k conn true extdata) := by
  have hlog : (Dispatch.parse server w k conn true extdata).log =
      w.log ++ [.parsed conn w.nextPacket w.nextRecord] := rfl
  have hnext : (Dispatch.parse server w k conn true extdata).nextRecord = w.nextRecord + 1 := rfl
  have hself : (Dispatch.parse server w k conn true extdata).records w.nextRecord =
      ⟨⟨(server.connector conn).id, some w.nextPacket, (server.connector conn).ip,
        (server.connector conn).port, (server.connector conn).connectFd, extdata⟩, false, conn⟩ :=
    if_pos rfl
  have hother : ∀ q, q < w.nextRecord →
      (Dispatch.parse server w k conn true extdata).records q = w.records q :=
    fun q hq => if_neg (Nat.ne_of_lt hq)
  have hnet : (Dispatch.parse server w k conn true extdata).netThreads k =
      .testing conn w.nextRecord := if_pos rfl
  have hnets : ∀ j, j ≠ k →
      (Dispatch.parse server w k conn true extdata).netThreads j = w.netThreads j :=
    fun j hj => if_neg hj
  have hhandles : (Dispatch.parse server w k conn true extdata).handleThreads = w.handleThreads := rfl
  generalize Dispatch.parse server w k conn true extdata = w' at *
  have hparsed : ∀ c, parsedOf c w'.log =
      parsedOf c w.log ++ (if conn = c then some w.nextRecord else none).toList := by
    intro c
    rw [hlog]
    exact filterMap_event ..
  have hinserted : ∀ c, insertedOf c w'.log = insertedOf c w.log := by
    intro c
    rw [hlog]
    exact (filterMap_event ..).trans (List.append_nil _)
  have hhandled : ∀ c, handledOf c w'.log = handledOf c w.log := by
    intro c
    rw [hlog]
    exact (filterMap_event ..).trans (List.append_nil _)
  have hhome : k = homeOf server conn := h.home k conn (by rw [hpc]; rfl)
  constructor
  case made =>
    intro c r hr
    rw [hparsed] at hr
    rw [hnext]
    rcases List.mem_append.mp hr with hold | hnew
    · exact Nat.lt_succ_of_lt (h.made c r hold)
    · split at hnew
      · cases List.mem_singleton.mp hnew
        exact Nat.lt_succ_self _
      · cases hnew
  case increasing =>
    intro c
    rw [hparsed, List.pairwise_append]
    refine ⟨h.increasing c, ?_, ?_⟩
    · split
      · exact List.pairwise_singleton ..
      · exact .nil
    · intro a ha b hb
      split at hb
      · cases List.mem_singleton.mp hb
        exact h.made c a ha
      · cases hb
  case sublist =>
    intro c
    rw [hparsed, hinserted]
    exact (h.sublist c).trans (List.sublist_append_left ..)
  case home =>
    intro j conn' hconn
    by_cases hj : j = k
    · subst hj
      rw [hnet] at hconn
      cases hconn
      exact hhome
    · rw [hnets j hj] at hconn
      exact h.home j conn' hconn
  case offered =>
    intro j conn' r hr
    by_cases hj : j = k
    · subst hj
      rw [hnet] at hr
      cases hr
      refine ⟨hnext ▸ Nat.lt_succ_self _, by rw [hself], parsedOf conn w.log, ?_, ?_⟩
      · rw [hparsed, if_pos rfl]
        rfl
      · rw [hinserted]
        exact h.sublist conn
    · rw [hnets j hj] at hr
      obtain ⟨hlt, hsource, l, hl, hsub⟩ := h.offered j conn' r hr
      -- another net thread is at work on another connection
      have hne : conn ≠ conn' := by
        rintro rfl
        exact hj ((h.home j conn (conn_of_offers hr)).trans hhome.symm)
      refine ⟨hnext ▸ Nat.lt_succ_of_lt hlt, by rw [hother r hlt]; exact hsource, l, ?_, ?_⟩
      · rw [hparsed, if_neg hne]
        exact (List.append_nil _).trans hl
      · rw [hinserted]
        exact hsub
  case fd =>
    intro r hr
    by_cases hrn : r = w.nextRecord
    · subst hrn
      rw [hself]
    · have hlt : r < w.nextRecord := by
        rw [hnext] at hr
        exact Nat.lt_of_le_of_ne (Nat.le_of_lt_succ hr) hrn
      rw [hother r hlt]
      exact h.fd r hlt
  case lane =>
    intro i r hr
    rw [hhandles] at hr
    obtain ⟨hlt, hlane⟩ := h.lane i r hr
    rw [hother r hlt]
    exact ⟨hnext ▸ Nat.lt_succ_of_lt hlt, hlane⟩
  case fifo =>
    intro c
    have hfifo := h.fifo c
    unfold Fifo at hfifo ⊢
    rw [hinserted, hhandled, hhandles]
    have hwaiting : ((w.handleThreads (laneOf server c)).waiting.filter
        fun r => decide ((w'.records r).conn = c)) =
        (w.handleThreads (laneOf server c)).waiting.filter
          fun r => decide ((w.records r).conn = c) := by
      apply List.filter_congr
      intro r hr
      rw [hother r (h.lane _ r hr).1]
    rw [hwaiting]
    exact hfifo
  case thread =>
    intro i c r hmem
    rw [hlog] at hmem
    rcases List.mem_append.mp hmem with hold | hnew
    · exact h.thread i c r hold
    · cases List.mem_singleton.mp hnew

/-- The handle thread a record goes to is that of its connection. -/
theorem OrderOk.handleThreadOf (h : OrderOk server w) {t : HandleThread}
    (hoffers : (w.netThreads k).offers = some (conn, r))
    (hok : Dispatch.handleThreadOf server w r = .ok (i, t)) :
    i = laneOf server conn ∧ t = w.handleThreads i := by
  obtain ⟨hlt, hsource, -⟩ := h.offered k conn r hoffers
  have hfd := h.fd r hlt
  rw [hsource] at hfd
  unfold Dispatch.handleThreadOf Dispatch.read selectedHandle handleThread at hok
  simp only [bind, Except.bind] at hok
  split at hok
  · cases hok
  · rename_i value hread
    split at hread
    · cases hread
    · cases hread
      -- the thread is chosen by the descriptor in the record, which is the connection's
      split at hok
      · cases hok
      · rename_i j hselected
        split at hselected
        · cases hselected
        · cases hselected
          rw [hfd] at hok
          split at hok
          · cases hok
          · rename_i t' hthread
            cases hok
            refine ⟨rfl, ?_⟩
            split at hthread
            · cases hthread
            · cases hthread
            · cases hthread
              rfl

/-- The record goes into the list of a handle thread. -/
theorem OrderOk.insertRecord (h : OrderOk server w) (hmode : server.runMode ≠ 1)
    (hpc : w.netThreads k = .inserting conn r)
    (hok : Dispatch.insertRecord server w k conn r = .ok w') : OrderOk server w' := by
  have hoffers : (w.netThreads k).offers = some (conn, r) := by
    rw [hpc]
    rfl
  obtain ⟨hlt, hsource, l, hl, hsub⟩ := h.offered k conn r hoffers
  have hhome : k = homeOf server conn := h.home k conn (by rw [hpc]; rfl)
  unfold Dispatch.insertRecord at hok
  rw [if_neg hmode] at hok
  split at hok
  · cases hok
  · rename_i i t hthread
    obtain ⟨rfl, rfl⟩ := h.handleThreadOf hoffers hthread
    -- the record is the last of what waits at the connection's thread
    have hwaiting : HandleThread.waiting { w.handleThreads (laneOf server conn) with
        handlelist := (w.handleThreads (laneOf server conn)).handlelist.pushLocked r } =
          (w.handleThreads (laneOf server conn)).waiting ++ [r] := by
      unfold HandleThread.waiting
      dsimp only
      split <;> rfl
    have hthreads : ∀ j, w'.handleThreads j = if j = laneOf server conn then
        { w.handleThreads (laneOf server conn) with
          handlelist := (w.handleThreads (laneOf server conn)).handlelist.pushLocked r }
        else w.handleThreads j := by
      cases hok
      exact fun _ => rfl
    have hnets : ∀ j, w'.netThreads j = if j = k then .parsing conn else w.netThreads j := by
      cases hok
      exact fun _ => rfl
    have hrecords : w'.records = w.records ∧ w'.nextRecord = w.nextRecord := by
      cases hok
      exact ⟨rfl, rfl⟩
    obtain ⟨hrecords, hnext⟩ := hrecords
    have hlog : w'.log = w.log ++ [.inserted (some (laneOf server conn)) conn r] := by
      cases hok
      rfl
    clear hok hthread
    -- in the log only the insertion is new
    have hparsed : ∀ c, parsedOf c w'.log = parsedOf c w.log := by
      intro c
      rw [hlog]
      exact (filterMap_event ..).trans (List.append_nil _)
    have hinserted : ∀ c, insertedOf c w'.log =
        insertedOf c w.log ++ (if conn = c then some r else none).toList := by
      intro c
      rw [hlog]
      exact filterMap_event ..
    have hhandled : ∀ c, handledOf c w'.log = handledOf c w.log := by
      intro c
      rw [hlog]
      exact (filterMap_event ..).trans (List.append_nil _)
    constructor
    case made =>
      intro c q hq
      rw [hparsed] at hq
      rw [hnext]
      exact h.made c q hq
    case increasing =>
      intro c
      rw [hparsed]
      exact h.increasing c
    case sublist =>
      intro c
      rw [hparsed, hinserted]
      by_cases hc : conn = c
      · subst hc
        rw [if_pos rfl, hl]
        exact hsub.append_right [r]
      · rw [if_neg hc]
        simpa using h.sublist c
    case home =>
      intro j conn' hconn
      rw [hnets] at hconn
      split at hconn
      · cases hconn
        rename_i hj
        rw [hj]
        exact hhome
      · exact h.home j conn' hconn
    case offered =>
      intro j conn' q hq
      rw [hnets] at hq
      split at hq
      · cases hq
      · rename_i hj
        obtain ⟨hlt', hsource', l', hl', hsub'⟩ := h.offered j conn' q hq
        -- another net thread offers a record of another connection
        have hne : conn ≠ conn' := by
          rintro rfl
          exact hj ((h.home j conn (conn_of_offers hq)).trans hhome.symm)
        rw [hnext, hrecords, hparsed, hinserted, if_neg hne]
        exact ⟨hlt', hsource', l', hl', by simpa using hsub'⟩
    case fd =>
      rw [hnext, hrecords]
      exact h.fd
    case lane =>
      intro j q hq
      rw [hnext, hrecords]
      rw [hthreads] at hq
      split at hq
      · rename_i hj
        rw [hwaiting] at hq
        rcases List.mem_append.mp hq with hold | hnew
        · rw [hj]
          exact h.lane _ q hold
        · cases List.mem_singleton.mp hnew
          rw [hsource]
          exact ⟨hlt, hj.symm⟩
      · exact h.lane j q hq
    case fifo =>
      intro c
      have hfifo := h.fifo c
      unfold Fifo at hfifo ⊢
      rw [hinserted, hhandled, hrecords, hthreads]
      by_cases hlane : laneOf server c = laneOf server conn
      -- for the connections of this thread, what waits grows at its end
      · rw [if_pos hlane, hwaiting]
        rw [hlane] at hfifo
        change if (w.handleThreads (laneOf server conn)).pc.stopped = true then _ else _
        split at hfifo
        · rename_i hstopped
          rw [if_pos hstopped]
          exact hfifo.trans (List.prefix_append ..)
        · rename_i hstopped
          rw [if_neg hstopped, hfifo, List.filter_append, List.append_assoc]
          by_cases hc : conn = c
          · subst hc
            simp [hsource]
          · simp [hsource, hc]
      · have hc : conn ≠ c := by
          rintro rfl
          exact hlane rfl
        rw [if_neg hlane, if_neg hc]
        simpa using hfifo
    case thread =>
      intro j c q hmem
      rw [hlog] at hmem
      rcases List.mem_append.mp hmem with hold | hnew
      · exact h.thread j c q hold
      · cases List.mem_singleton.mp hnew

/-- The next record is passed to `handle`. -/
theorem OrderOk.handle (h : OrderOk server w) (hpc : (w.handleThreads i).pc = .handling r) :
    OrderOk server ((w.setHandle i { w.handleThreads i with pc := .cleaning r }).emit
      [.handled i (w.records r).conn r]) := by
  have hthreads : ∀ j, ((w.setHandle i { w.handleThreads i with pc := .cleaning r }).emit
      [.handled i (w.records r).conn r]).handleThreads j =
        if j = i then { w.handleThreads i with pc := .cleaning r } else w.handleThreads j :=
    fun _ => rfl
  have hlog : ((w.setHandle i { w.handleThreads i with pc := .cleaning r }).emit
      [.handled i (w.records r).conn r]).log = w.log ++ [.handled i (w.records r).conn r] := rfl
  have hnets : ((w.setHandle i { w.handleThreads i with pc := .cleaning r }).emit
      [.handled i (w.records r).conn r]).netThreads = w.netThreads := rfl
  have hrecords : ((w.setHandle i { w.handleThreads i with pc := .cleaning r }).emit
      [.handled i (w.records r).conn r]).records = w.records := rfl
  have hnext : ((w.setHandle i { w.handleThreads i with pc := .cleaning r }).emit
      [.handled i (w.records r).conn r]).nextRecord = w.nextRecord := rfl
  generalize (w.setHandle i { w.handleThreads i with pc := .cleaning r }).emit
    [.handled i (w.records r).conn r] = w' at *
  -- the record is the first of what waits
  have hwaiting : (w.handleThreads i).waiting = r :: (w.handleThreads i).handlelist.queue := by
    rw [HandleThread.waiting, hpc]
  obtain ⟨hlt, hlane⟩ := h.lane i r (hwaiting ▸ List.mem_cons_self ..)
  -- in the log only the handling is new
  have hparsed : ∀ c, parsedOf c w'.log = parsedOf c w.log := by
    intro c
    rw [hlog]
    exact (filterMap_event ..).trans (List.append_nil _)
  have hinserted : ∀ c, insertedOf c w'.log = insertedOf c w.log := by
    intro c
    rw [hlog]
    exact (filterMap_event ..).trans (List.append_nil _)
  have hhandled : ∀ c, handledOf c w'.log =
      handledOf c w.log ++ (if (w.records r).conn = c then some r else none).toList := by
    intro c
    rw [hlog]
    exact filterMap_event ..
  constructor
  case made =>
    intro c q hq
    rw [hparsed] at hq
    rw [hnext]
    exact h.made c q hq
  case increasing =>
    intro c
    rw [hparsed]
    exact h.increasing c
  case sublist =>
    intro c
    rw [hparsed, hinserted]
    exact h.sublist c
  case home =>
    rw [hnets]
    exact h.home
  case offered =>
    intro k conn q hq
    rw [hnets] at hq
    rw [hnext, hrecords, hparsed, hinserted]
    exact h.offered k conn q hq
  case fd =>
    rw [hnext, hrecords]
    exact h.fd
  case lane =>
    intro j q hq
    rw [hnext, hrecords]
    rw [hthreads] at hq
    split at hq
    · rename_i hj
      rw [hj]
      exact h.lane i q (hwaiting ▸ List.mem_cons_of_mem _ hq)
    · exact h.lane j q hq
  case fifo =>
    intro c
    have hfifo := h.fifo c
    unfold Fifo at hfifo ⊢
    rw [hinserted, hhandled, hrecords, hthreads]
    by_cases hc : laneOf server c = i
    -- the record goes from the head of what waits to the end of what was handled
    · have hrunning : (HandlePc.handling r).stopped ≠ true := Bool.false_ne_true
      rw [hc, hpc, if_neg hrunning, hwaiting] at hfifo
      rw [if_pos hc]
      change if false = true then _ else _
      rw [if_neg Bool.false_ne_true, hfifo, List.append_assoc]
      change _ = _ ++ (_ ++ (w.handleThreads i).handlelist.queue.filter _)
      by_cases hconn : (w.records r).conn = c
      · simp [hconn]
      · simp [hconn]
    · have hconn : (w.records r).conn ≠ c := by
        rintro rfl
        exact hc hlane
      rw [if_neg hc, if_neg hconn]
      simpa using hfifo
  case thread =>
    intro j c q hmem
    rw [hlog] at hmem
    rcases List.mem_append.mp hmem with hold | hnew
    · exact h.thread j c q hold
    · cases List.mem_singleton.mp hnew
      exact hlane.symm

/-! ## Steps -/

/-- What a disposal leaves alone. -/
theorem dispose_frame {a : Allocator} (h : w.dispose r a = .ok w') :
    SameSource w w' ∧ QuietLog w w' ∧ w'.netThreads = w.netThreads ∧
      w'.handleThreads = w.handleThreads := by
  unfold dispose at h
  split at h
  · cases h
  · rename_i value hread
    cases h
    unfold Dispatch.read at hread
    split at hread
    · cases hread
    · cases hread
      refine ⟨⟨rfl, ?_, ?_⟩, ⟨_, rfl, ?_⟩, rfl, rfl⟩
      · intro q
        change (if q = r then _ else w.records q : Record).conn = _
        split
        · rename_i hq
          rw [hq]
        · rfl
      · intro q
        change (if q = r then _ else w.records q : Record).value.fd = _
        split
        · rename_i hq
          rw [hq]
        · rfl
      · intro e he
        rcases List.mem_append.mp he with hmem | hmem
        · obtain ⟨p, -, rfl⟩ := List.mem_map.mp hmem
          trivial
        · cases List.mem_singleton.mp hmem
          trivial

theorem Waits.set {t : HandleThread} (ht : Waits (w.handleThreads i) t) (j : Nat) :
    Waits (w.handleThreads j) ((w.setHandle i t).handleThreads j) := by
  change Waits _ (if j = i then t else w.handleThreads j)
  split
  · rename_i hj
    rw [hj]
    exact ht
  · exact .refl _

/-- A handle thread changes, and nothing is handled. -/
theorem OrderOk.setHandle (h : OrderOk server w) {t : HandleThread}
    (ht : Waits (w.handleThreads i) t) : OrderOk server (w.setHandle i t) :=
  h.quiet (.of_eq rfl rfl) (.of_eq rfl) h.home (fun _ _ _ hr => hr) ht.set

/-- A net thread goes to another place in `ParseImp`. -/
theorem OrderOk.setNet (h : OrderOk server w) {pc : ParsePc}
    (hconn : ∀ conn, pc.conn = some conn → k = homeOf server conn)
    (hoffers : ∀ conn r, pc.offers = some (conn, r) → (w.netThreads k).offers = some (conn, r)) :
    OrderOk server (w.setNet k pc) := by
  refine h.quiet (.of_eq rfl rfl) (.of_eq rfl) ?_ ?_ fun _ => .refl _
  · intro j conn hj
    change (if j = k then pc else w.netThreads j).conn = _ at hj
    split at hj
    · rename_i hjk
      rw [hjk]
      exact hconn conn hj
    · exact h.home j conn hj
  · intro j conn r hj
    change (if j = k then pc else w.netThreads j).offers = _ at hj
    split at hj
    · rename_i hjk
      rw [hjk]
      exact hoffers conn r hj
    · exact hj

theorem OrderOk.emit (h : OrderOk server w) (he : Quiet e) : OrderOk server (w.emit [e]) := by
  refine h.quiet (.of_eq rfl rfl) ⟨[e], rfl, ?_⟩ h.home (fun _ _ _ hr => hr) fun _ => .refl _
  intro e' he'
  rw [List.mem_singleton] at he'
  rwa [he']

theorem OrderOk.dispose (h : OrderOk server w) {a : Allocator} (hok : w.dispose r a = .ok w') :
    OrderOk server w' := by
  obtain ⟨hsource, hlog, hnets, hhandles⟩ := dispose_frame hok
  refine h.quiet hsource hlog ?_ ?_ ?_
  · rw [hnets]
    exact h.home
  · rw [hnets]
    exact fun _ _ _ hr => hr
  · intro i
    rw [hhandles]
    exact .refl _

theorem OrderOk.netStep (h : OrderOk server w) (hmode : server.runMode ≠ 1)
    (hok : Dispatch.netStep server w k = .ok w') : OrderOk server w' := by
  unfold Dispatch.netStep at hok
  split at hok
  · rename_i conn r hpc
    have hhome : k = homeOf server conn := h.home k conn (by rw [hpc]; rfl)
    have hfailed : OrderOk server (w.setNet k (.failed conn r)) := by
      refine h.setNet ?_ fun _ _ hr => nomatch hr
      intro conn' hconn
      cases hconn
      exact hhome
    have hinserting : OrderOk server (w.setNet k (.inserting conn r)) := by
      refine h.setNet ?_ ?_
      · intro conn' hconn
        cases hconn
        exact hhome
      · rw [hpc]
        exact fun _ _ hr => hr
    unfold testQueue at hok
    rw [if_neg hmode] at hok
    split at hok
    · cases hok
    · split at hok
      · exact (hfailed.emit (e := .refused r) trivial).dispose hok
      · cases hok
        exact hinserting
  · rename_i conn r hpc
    exact h.insertRecord hmode hpc hok
  · rename_i conn r hpc
    have hparsing : OrderOk server (w.setNet k (.parsing conn)) := by
      refine h.setNet ?_ fun _ _ hr => nomatch hr
      intro conn' hconn
      cases hconn
      exact h.home k conn (by rw [hpc]; rfl)
    exact hparsing.dispose hok
  · cases hok
    exact h

theorem OrderOk.handleStep (h : OrderOk server w) (hmode : server.runMode ≠ 1)
    (hok : Dispatch.handleStep server w i = .ok w') : OrderOk server w' := by
  unfold Dispatch.handleStep at hok
  dsimp only at hok
  split at hok
  · rename_i hpc
    have hwaiting : (w.handleThreads i).waiting = (w.handleThreads i).handlelist.queue := by
      rw [HandleThread.waiting, hpc]
    have hrunning : (w.handleThreads i).pc.stopped = false := by
      rw [hpc]
      rfl
    unfold takeRecord at hok
    dsimp only at hok
    rw [if_neg hmode] at hok
    split at hok
    · rcases (w.handleThreads i).handlelist.popFront_spec with ⟨-, hpop⟩ | ⟨r, rest, hpop, hqueue, -⟩
      · rw [hpop] at hok
        cases hok
        exact h
      · rw [hpop] at hok
        cases hok
        -- the head of the list waits on in the thread's hand
        have hsame : HandleThread.waiting
            { w.handleThreads i with handlelist := rest, pc := .handling r } =
              (w.handleThreads i).waiting := by
          rw [hwaiting, hqueue]
          rfl
        exact h.setHandle ⟨fun q hq => hsame ▸ hq, fun _ => ⟨hrunning, hsame⟩⟩
    · cases hok
      refine h.setHandle ⟨?_, fun _ => ⟨hrunning, hwaiting.symm⟩⟩
      rw [hwaiting]
      exact fun _ hq => hq
  · rename_i r hpc
    split at hok
    · cases hok
    · cases hok
      exact h.handle hpc
  · rename_i r hpc
    have hwaiting : (w.handleThreads i).waiting = (w.handleThreads i).handlelist.queue := by
      rw [HandleThread.waiting, hpc]
    have hlooping : OrderOk server (w.setHandle i { w.handleThreads i with pc := .looping }) := by
      refine h.setHandle ⟨?_, fun _ => ⟨?_, hwaiting.symm⟩⟩
      · rw [hwaiting]
        exact fun _ hq => hq
      · rw [hpc]
        rfl
    exact hlooping.dispose hok
  · cases hok
    exact h

theorem OrderOk.stopStep (h : OrderOk server w) (hok : Dispatch.stopStep w i = .ok w') :
    OrderOk server w' := by
  unfold Dispatch.stopStep at hok
  dsimp only at hok
  split at hok
  · cases hok
    exact h.setHandle ⟨fun _ hq => hq, fun hrunning => ⟨hrunning, rfl⟩⟩
  · split at hok
    · rename_i hpc
      cases hok
      refine h.setHandle ⟨?_, fun hrunning => nomatch hrunning⟩
      rw [HandleThread.waiting, HandleThread.waiting, hpc]
      exact fun _ hq => hq
    · rename_i hpc
      rcases (w.handleThreads i).handlelist.popFront_spec with ⟨-, hpop⟩ | ⟨r, rest, hpop, hqueue, -⟩
      · rw [hpop] at hok
        cases hok
        refine h.setHandle ⟨?_, fun hrunning => nomatch hrunning⟩
        rw [HandleThread.waiting, HandleThread.waiting, hpc]
        exact fun _ hq => hq
      · rw [hpop] at hok
        have hpopped : OrderOk server (w.setHandle i { w.handleThreads i with handlelist := rest }) := by
          refine h.setHandle ⟨?_, ?_⟩
          · simp only [HandleThread.waiting, hpc]
            intro q hq
            rw [hqueue]
            exact List.mem_cons_of_mem _ hq
          · intro hrunning
            simp only [hpc] at hrunning
            cases hrunning
        exact hpopped.dispose hok
    · rename_i hpc
      cases hok
      refine h.setHandle ⟨?_, fun hrunning => nomatch hrunning⟩
      rw [HandleThread.waiting, HandleThread.waiting, hpc]
      exact fun _ hq => hq
    · cases hok
      exact h

/-- **Step**: in run mode 2 one step keeps the order of every connection. -/
theorem OrderOk.step (h : OrderOk server w) (hmode : server.runMode ≠ 1) {act : DispatchAction}
    (hok : dispatchStep server w act = .ok w') : OrderOk server w' := by
  cases act with
  | parseImp conn =>
    simp only [dispatchStep] at hok
    split at hok
    · cases hok
      refine h.setNet ?_ fun _ _ hr => nomatch hr
      intro conn' hconn
      cases hconn
      rfl
    · cases hok
      exact h
  | parse k found extdata =>
    simp only [dispatchStep] at hok
    split at hok
    · rename_i conn hpc
      cases hok
      cases found with
      | true => exact h.parse hpc extdata
      | false => exact h.setNet (fun _ hconn => nomatch hconn) fun _ _ hr => nomatch hr
    · cases hok
      exact h
  | net k => exact h.netStep hmode hok
  | handle i =>
    simp only [dispatchStep] at hok
    split at hok
    · exact h.handleStep hmode hok
    · cases hok
      exact h
  | stop i =>
    simp only [dispatchStep] at hok
    split at hok
    · exact h.stopStep hok
    · cases hok
      exact h

/-! ## Whole runs -/

theorem orderOk_init (server : DispatchServer) (recvMaxSize : Nat) (handleMaxSize : Nat → Nat)
    (records : RecordPtr → Record) : OrderOk server (init recvMaxSize handleMaxSize records) where
  made := fun _ _ hr => nomatch hr
  increasing := fun _ => .nil
  sublist := fun _ => .slnil
  home := fun _ _ h => nomatch h
  offered := fun _ _ _ h => nomatch h
  fd := fun r hr => absurd hr (Nat.not_lt_zero r)
  lane := fun _ _ hr => nomatch hr
  fifo := fun _ => rfl
  thread := fun _ _ _ h => nomatch h

/-- The packets of a connection that were handled. -/
structure InOrder (server : DispatchServer) (w : Dispatch) (c : ConnectorPtr) : Prop where
  /-- are the first of those inserted, in the order in which they were parsed, -/
  order : handledOf c w.log <+: (parsedOf c w.log).filter fun r => decide (r ∈ insertedOf c w.log)
  /-- were handled once, -/
  once : (handledOf c w.log).Nodup
  /-- and by one handle thread. -/
  thread : ∀ i r, .handled i c r ∈ w.log → i = laneOf server c

/-- The elements of a sublist, picked out of a list without repetitions. -/
theorem filter_mem_sublist {l m : List RecordPtr} (h : l.Sublist m) (hnodup : m.Nodup) :
    (m.filter fun r => decide (r ∈ l)) = l := by
  induction h with
  | slnil => rfl
  | @cons l m a h ih =>
    obtain ⟨ha, hm⟩ := List.nodup_cons.mp hnodup
    rw [List.filter_cons_of_neg (by simpa using fun hmem => ha (h.subset hmem))]
    exact ih hm
  | @cons_cons l m a h ih =>
    obtain ⟨ha, hm⟩ := List.nodup_cons.mp hnodup
    rw [List.filter_cons_of_pos (by simp)]
    congr 1
    have hcongr : (m.filter fun r => decide (r ∈ a :: l)) = m.filter fun r => decide (r ∈ l) := by
      apply List.filter_congr
      intro r hr
      have hne : r ≠ a := by
        rintro rfl
        exact ha hr
      simp [hne]
    rw [hcongr]
    exact ih hm

theorem Fifo.handled_initial (h : Fifo server w c) : handledOf c w.log <+: insertedOf c w.log := by
  unfold Fifo at h
  split at h
  · exact h
  · rw [h]
    exact List.prefix_append ..

theorem OrderOk.inOrder (h : OrderOk server w) (c : ConnectorPtr) : InOrder server w c where
  order := by
    have hnodup : (parsedOf c w.log).Nodup := (h.increasing c).imp fun hlt => Nat.ne_of_lt hlt
    rw [filter_mem_sublist (h.sublist c) hnodup]
    exact (h.fifo c).handled_initial
  once := by
    have hnodup : (parsedOf c w.log).Nodup := (h.increasing c).imp fun hlt => Nat.ne_of_lt hlt
    exact ((h.fifo c).handled_initial.sublist.trans (h.sublist c)).nodup hnodup
  thread := fun i r hmem => h.thread i c r hmem

/-- **Order of a connection**: in every state that a run in run mode 2 reaches, the packets of a
connection are handled in the order in which they were parsed, each once at most, and all by one
handle thread. -/
theorem connection_order (server : DispatchServer) (hmode : server.runMode = 2)
    (recvMaxSize : Nat) (handleMaxSize : Nat → Nat) (records : RecordPtr → Record)
    (as : List DispatchAction) (hrun : run (dispatchStep server)
      (init recvMaxSize handleMaxSize records) as = .ok w) (c : ConnectorPtr) :
    InOrder server w c := by
  have hne : server.runMode ≠ 1 := by
    rw [hmode]
    decide
  have hok : OrderOk server w := run_invariant' (fun _ _ _ h hok => h.step hne hok)
    (orderOk_init server recvMaxSize handleMaxSize records) hrun
  exact hok.inOrder c

/-! ## Two handle threads -/

/-- A server with one net thread and two handle threads; connections 0 and 1 go to different ones. -/
def twoLanes : DispatchServer where
  netThreadNum := 1
  handleNum := 2
  runMode := 2
  useMemoryPool := false
  connector := fun c => if c = 0 then ⟨1, ascii "1.2.3.4", 80, 7, by decide⟩
    else ⟨2, ascii "1.2.3.5", 80, 8, by decide⟩

/-- Two packets of connection 0 and one of connection 1, in different lists. -/
def twoConnections : List DispatchAction :=
  [.parseImp 0, .parse 0 true (.zero 8), .net 0, .net 0, .parse 0 true (.zero 8), .net 0, .net 0,
    .parse 0 false (.zero 8), .parseImp 1, .parse 0 true (.zero 8), .net 0, .net 0, .handle 0,
    .handle 0, .handle 1, .handle 1, .handle 1, .handle 1, .handle 1]

/-- Both lists have room for four records; the memory of the records is zero. -/
def twoEmptyLanes : Dispatch :=
  init 4 (fun _ => 4) fun _ => ⟨⟨0, none, [], 0, 0, .zero 8⟩, false, 0⟩

theorem connection_order_two_lanes :
    ∃ w, run (dispatchStep twoLanes) twoEmptyLanes twoConnections = .ok w ∧
      handledOf 0 w.log = [0, 1] ∧ InOrder twoLanes w 0 := by
  have hrun : ∃ w, run (dispatchStep twoLanes) twoEmptyLanes twoConnections = .ok w ∧
      handledOf 0 w.log = [0, 1] := ⟨_, rfl, rfl⟩
  obtain ⟨w, hrun, hhandled⟩ := hrun
  exact ⟨w, hrun, hhandled, connection_order twoLanes rfl 4 _ _ _ hrun 0⟩

end Dispatch

end Sails.Net
