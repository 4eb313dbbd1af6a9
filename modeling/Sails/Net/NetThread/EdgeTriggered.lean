import Sails.Net.NetThread.Reading

/-!
# Reading under edge-triggered notification

The kernel's side of a connection: bytes and the peer's end of file arrive at any time, and an
arrival makes a report pending. A report leads to one call of `read_data`; before each `::read`
of the call more may arrive.

- `Socket`: what has arrived and not been read
- `Sockets`, `socketStep`: a net thread whose reads are answered from its sockets
- `reads_miss_nothing`: calls of `read_data` leave neither bytes nor an unseen end of file in the
  socket, as long as none ends with a short read behind which the end of file already waits
-/

namespace Sails.Net

open TransitionRun
open CMemory
open Sails.Base

/-! ## The kernel's side of a connection -/

/-- What a peer sends. -/
inductive Arrival where
  | bytes (bytes : Bytes)
  | eof
  deriving DecidableEq

/-- The receiving side of a connection. -/
structure Socket where
  /-- the bytes that have arrived and not been read -/
  unread : Bytes
  /-- the peer's end of file has arrived -/
  eof : Bool
  /-- something has arrived since the last report was taken -/
  reported : Bool
  /-- a read has met the end of file or an error of the connection -/
  ended : Bool
  ended_unread : ended = true → unread = []

namespace Socket

/-- A new connection. -/
def fresh : Socket := ⟨[], false, false, false, fun _ => rfl⟩

/-- Something arrives; nothing does after the end. -/
def arrive (k : Socket) (arrival : Arrival) : Socket :=
  if h : k.eof = true ∨ k.ended = true then k
  else
    match arrival with
    | .bytes bytes =>
      ⟨k.unread ++ bytes, k.eof, true, k.ended, fun hended => absurd (.inr hended) h⟩
    | .eof => ⟨k.unread, true, true, k.ended, k.ended_unread⟩

/-- The report is taken. -/
def takeReport (k : Socket) : Socket := ⟨k.unread, k.eof, false, k.ended, k.ended_unread⟩

/-- A read before which these things arrive, and which an interrupt or an error may meet. -/
structure Moment where
  arrivals : List Arrival
  failure : Option Errno

def arriveAll (k : Socket) (arrivals : List Arrival) : Socket := arrivals.foldl arrive k

/-- `::read` of at most `READBYTES` bytes: the answer and the socket afterwards. It delivers what
is there; an error of the connection, the end of file and `EAGAIN` come when nothing is. -/
def read (k : Socket) (m : Moment) : NetThread.Answer × Socket :=
  let k := k.arriveAll m.arrivals
  if m.failure = some .eintr then (.failed .eintr, k)
  else if h : k.unread = [] then
    if m.failure = some .other then (.failed .other, ⟨k.unread, k.eof, k.reported, true, fun _ => h⟩)
    else if k.eof ∨ k.ended then
      (.got [] (Nat.zero_le _), ⟨k.unread, k.eof, k.reported, true, fun _ => h⟩)
    else (.failed .eagain, k)
  else
    (.got (k.unread.take Connector.readBytes) (List.length_take_le ..),
      ⟨k.unread.drop Connector.readBytes, k.eof, k.reported, k.ended,
        fun hended => absurd (k.ended_unread hended) h⟩)

/-- The answers to reads at these moments. -/
def answers (k : Socket) : List Moment → List NetThread.Answer
  | [] => []
  | m :: moments => (k.read m).1 :: (k.read m).2.answers moments

/-- The socket after reads at these moments. -/
def after (k : Socket) (moments : List Moment) : Socket :=
  moments.foldl (fun k m => (k.read m).2) k

/-- Neither unread bytes nor an unseen end of file are left. -/
def Drained (k : Socket) : Prop := k.unread = [] ∧ (k.eof = true → k.ended = true)

/-- What is left in the socket has a report pending. -/
def Noticed (k : Socket) : Prop := k.Drained ∨ k.reported = true

/-- The reads go on until one is short, and the end of file was there before that read. -/
inductive HidesEnd : Socket → List Moment → Prop
  | now {k m moments} : 0 < (k.read m).1.bytes.length →
      (k.read m).1.bytes.length < Connector.readBytes →
      (k.arriveAll m.arrivals).eof = true → HidesEnd k (m :: moments)
  | later {k m moments} : (k.read m).1 = .failed .eintr ∨
      (k.read m).1.bytes.length = Connector.readBytes →
      HidesEnd (k.read m).2 moments → HidesEnd k (m :: moments)

variable {k : Socket} {m : Moment} {moments : List Moment}

theorem Noticed.arrive (h : k.Noticed) (arrival : Arrival) : (k.arrive arrival).Noticed := by
  unfold Socket.arrive
  split
  · exact h
  · cases arrival with
    | bytes bytes => exact .inr rfl
    | eof => exact .inr rfl

theorem hidesEnd_cons : k.HidesEnd (m :: moments) ↔
    (0 < (k.read m).1.bytes.length ∧ (k.read m).1.bytes.length < Connector.readBytes ∧
      (k.arriveAll m.arrivals).eof = true) ∨
    (((k.read m).1 = .failed .eintr ∨ (k.read m).1.bytes.length = Connector.readBytes) ∧
      (k.read m).2.HidesEnd moments) := by
  constructor
  · intro h
    cases h with
    | now hpos hshort heof => exact .inl ⟨hpos, hshort, heof⟩
    | later hon hrest => exact .inr ⟨hon, hrest⟩
  · rintro (⟨hpos, hshort, heof⟩ | ⟨hon, hrest⟩)
    · exact .now hpos hshort heof
    · exact .later hon hrest

/-- What a read does to the socket: an interrupt leaves it alone, an answer without bytes means
that it is drained, and a short read drains it unless the end of file has arrived. -/
inductive ReadCase (k : Socket) (m : Moment) : Prop where
  | interrupted (h : (k.read m).1 = .failed .eintr)
  | nothing (h : (k.read m).1.bytes = []) (hne : (k.read m).1 ≠ .failed .eintr)
      (hdrained : (k.read m).2.Drained)
  | some (b : UInt8) (bytes : Bytes) (fits : (b :: bytes).length ≤ Connector.readBytes)
      (h : (k.read m).1 = .got (b :: bytes) fits)
      (hdrained : bytes.length + 1 < Connector.readBytes →
        ((k.read m).2.Drained ↔ (k.arriveAll m.arrivals).eof ≠ true))

theorem readCase (k : Socket) (m : Moment) : ReadCase k m := by
  by_cases heintr : m.failure = .some .eintr
  · exact .interrupted (by rw [read]; simp only [if_pos heintr])
  · by_cases hunread : (k.arriveAll m.arrivals).unread = []
    -- nothing to deliver: the answer says why
    · have hread : (k.read m).1.bytes = [] ∧ (k.read m).1 ≠ .failed .eintr ∧
          (k.read m).2.Drained := by
        unfold read
        simp only [if_neg heintr, dif_pos hunread]
        split
        · exact ⟨rfl, by simp, hunread, fun _ => rfl⟩
        · split
          · exact ⟨rfl, by simp, hunread, fun _ => rfl⟩
          · rename_i hend
            exact ⟨rfl, by simp, hunread, fun heof => absurd (.inl heof) hend⟩
      exact .nothing hread.1 hread.2.1 hread.2.2
    · obtain ⟨b, rest, hcons⟩ := List.exists_cons_of_ne_nil hunread
      -- at least one byte is delivered, at most a buffer
      have hbytes : (k.arriveAll m.arrivals).unread.take Connector.readBytes =
          b :: rest.take (Connector.readBytes - 1) := by
        rw [hcons]
        rfl
      have hread : k.read m = (.got (b :: rest.take (Connector.readBytes - 1))
          (hbytes ▸ List.length_take_le ..), ⟨(k.arriveAll m.arrivals).unread.drop
            Connector.readBytes, (k.arriveAll m.arrivals).eof, (k.arriveAll m.arrivals).reported,
            (k.arriveAll m.arrivals).ended, fun hended =>
              absurd ((k.arriveAll m.arrivals).ended_unread hended) hunread⟩) := by
        unfold read
        simp only [if_neg heintr, dif_neg hunread, hbytes]
      refine .some b _ _ (congrArg Prod.fst hread) ?_
      intro hshort
      rw [hread]
      have hended : (k.arriveAll m.arrivals).ended ≠ true := fun hended =>
        hunread ((k.arriveAll m.arrivals).ended_unread hended)
      -- fewer than a buffer means that nothing is left
      have hdrop : (k.arriveAll m.arrivals).unread.drop Connector.readBytes = [] := by
        rw [List.drop_eq_nil_iff, hcons, List.length_cons]
        rw [List.length_take] at hshort
        omega
      constructor
      · rintro ⟨-, hseen⟩ heof
        exact hended (hseen heof)
      · intro heof
        exact ⟨hdrop, fun h => absurd h heof⟩

end Socket

namespace NetThread

variable {server : Server} {s t : NetThread} {conn : ConnectorPtr}

/-! ## A net thread and its sockets -/

/-- A net thread with the sockets of its connections, and what each call of `read_data` so far
has left in the socket it read from. -/
structure Sockets where
  net : NetThread
  socket : ConnectorPtr → Socket
  calls : List Socket

/-- What happens next. -/
inductive SocketAction where
  /-- something arrives on the socket of a connection -/
  | arrives (conn : ConnectorPtr) (arrival : Arrival)
  /-- a read event with this `uid` is dispatched, for a pending report or for one of an earlier
  connection, with these moments for the reads of the call -/
  | readEvent (uid : UInt32) (stale : Bool) (moments : List Socket.Moment) (now : Int)
  /-- any other step -/
  | other (act : Action)

/-- The call of `read_data` that the event leads to: the connection and its socket, the report
being taken. -/
def eventCall (w : Sockets) (uid : UInt32) (stale : Bool) : Option (ConnectorPtr × Socket) :=
  match w.net.pc, w.net.connectorList.get uid with
  | .waiting, .ok (some conn) =>
    if stale then some (conn, w.socket conn)
    else if (w.socket conn).reported then some (conn, (w.socket conn).takeReport)
    else none
  | _, _ => none

/-- The number of reads among these events. -/
def readCount (events : List NetEvent) : Nat :=
  events.countP fun e => match e with | .read _ => true | _ => false

/-- One step. -/
def socketStep (server : Server) (w : Sockets) : SocketAction → Except Fault Sockets
  | .arrives conn arrival =>
    .ok { w with socket := fun a =>
      if a = conn then (w.socket a).arrive arrival else w.socket a }
  | .readEvent uid stale moments now =>
    match eventCall w uid stale with
    | none => .ok w
    | some (conn, k) =>
      match step server w.net (.readEvent uid (k.answers moments) now) with
      | .error e => .error e
      | .ok t =>
        let reads := readCount (t.log.drop w.net.log.length)
        if reads = 0 then .ok w  -- more moments are needed
        else
          let left := k.after (moments.take reads)
          .ok
            { net := t
              socket := fun a => if a = conn then left else w.socket a
              calls := w.calls ++ [left] }
  | .other (.readEvent ..) => .ok w  -- answered from the sockets above
  | .other act =>
    match step server w.net act with
    | .error e => .error e
    | .ok t => .ok { w with net := t }

def Sockets.init (server : Server) (maxSize : Nat) (now : Int) (connectors : Connectors) : Sockets :=
  ⟨NetThread.init server maxSize now connectors, fun _ => .fresh, []⟩

/-- Every call of `read_data` has drained the socket it read from. -/
def AllDrained (w : Sockets) : Prop := ∀ left ∈ w.calls, left.Drained

/-- The call this event leads to does not end with a short read in front of an end of file that
has arrived. -/
def HidesNoEnd (w : Sockets) : SocketAction → Prop
  | .readEvent uid stale moments _ =>
    ∀ conn k, eventCall w uid stale = some (conn, k) → ¬ k.HidesEnd moments
  | _ => True

/-! ## One call -/

theorem readCount_readEvents (total : Nat) (events : List NetEvent) :
    readCount (readEvents conn total ++ events) = readCount events + 1 := by
  unfold readEvents readCount
  split <;> simp

/-- **One call**: it drains its socket, unless it ends with a short read and the end of file was
there before that read. Induction on the moments of the reads. -/
theorem drained_iff {k : Socket} {moments : List Socket.Moment} {total : Nat}
    {events : List NetEvent} {err : Bool}
    (htrace : readTrace conn total (k.answers moments) = some (events, err)) :
    (k.after (moments.take (readCount events))).Drained ↔ ¬ k.HidesEnd moments := by
  induction moments generalizing k total events err with
  | nil => cases htrace
  | cons m moments ih =>
    rw [Socket.answers] at htrace
    rw [Socket.hidesEnd_cons]
    cases k.readCase m with
    | interrupted h =>
      rw [h, readTrace, Option.map_eq_some_iff] at htrace
      obtain ⟨⟨events', err'⟩, htrace', heq⟩ := htrace
      cases heq
      have hcount : readCount (.read conn :: events') = readCount events' + 1 := by simp [readCount]
      rw [hcount, List.take_succ_cons]
      refine (ih htrace').trans (not_congr ?_)
      rw [h]
      simp [ReadAnswer.bytes]
    | nothing h hne hdrained =>
      -- the loop ends here
      have hevents : events = [.read conn] := by
        generalize (k.read m).1 = answer at htrace h hne
        cases answer with
        | failed errno =>
          cases errno with
          | eintr => exact absurd rfl hne
          | eagain | other => cases htrace; rfl
        | got bytes fits =>
          cases bytes with
          | nil => cases htrace; rfl
          | cons b bytes => cases h
      subst hevents
      refine iff_of_true hdrained ?_
      rw [h]
      rintro (⟨hpos, -⟩ | ⟨hon | hon, -⟩)
      · exact absurd hpos (Nat.lt_irrefl 0)
      · exact hne hon
      · cases hon
    | some b bytes fits h hdrained =>
      rw [h, readTrace] at htrace
      split at htrace
      · rename_i hshort
        cases htrace
        have hcount : readCount (readEvents conn (total + (bytes.length + 1))) = 1 := by
          rw [← List.append_nil (readEvents conn (total + (bytes.length + 1))),
            readCount_readEvents]
          rfl
        rw [hcount, h]
        refine (hdrained hshort).trans (not_congr ?_)
        constructor
        · intro heof
          exact .inl ⟨Nat.succ_pos _, hshort, heof⟩
        · rintro (⟨-, -, heof⟩ | ⟨hon | hon, -⟩)
          · exact heof
          · cases hon
          · exact absurd hon (Nat.ne_of_lt hshort)
      · rename_i hfull
        rw [Option.map_eq_some_iff] at htrace
        obtain ⟨⟨events', err'⟩, htrace', heq⟩ := htrace
        cases heq
        have hlen : (b :: bytes).length = Connector.readBytes :=
          Nat.le_antisymm fits (Nat.not_lt.mp hfull)
        rw [readCount_readEvents, List.take_succ_cons]
        refine (ih htrace').trans (not_congr ?_)
        rw [h]
        constructor
        · intro hrest
          exact .inr ⟨.inr hlen, hrest⟩
        · rintro (⟨-, hshort, -⟩ | ⟨-, hrest⟩)
          · exact absurd hshort hfull
          · exact hrest

/-- A short read ends the loop. -/
theorem readTrace_ne_none_of_hidesEnd {k : Socket} {moments : List Socket.Moment}
    (h : k.HidesEnd moments) (total : Nat) : readTrace conn total (k.answers moments) ≠ none := by
  -- by induction on where the end of the stream hides
  induction h generalizing total with
  | @now k m moments hpos hshort _ =>
    rw [Socket.answers]
    generalize (k.read m).1 = answer at hpos hshort
    cases answer with
    | failed errno => cases hpos
    | got bytes fits =>
      cases bytes with
      | nil => cases hpos
      | cons b bytes =>
        -- a short read ends the loop
        rw [readTrace, if_pos (show bytes.length + 1 < Connector.readBytes from hshort)]
        exact Option.some_ne_none _
  | @later k m moments hon _ ih =>
    rw [Socket.answers]
    generalize (k.read m).1 = answer at hon
    rcases hon with rfl | hfull
    · rw [readTrace, Ne, Option.map_eq_none_iff]
      exact ih total
    · cases answer with
      | failed errno => cases hfull
      | got bytes fits =>
        cases bytes with
        | nil => cases hfull
        | cons b bytes =>
          -- a full one does not, and the next answer is asked for
          have hnot : ¬ bytes.length + 1 < Connector.readBytes :=
            Nat.not_lt.mpr (Nat.le_of_eq hfull.symm)
          rw [readTrace, if_neg hnot, Ne, Option.map_eq_none_iff]
          exact ih _

/-- A call that is over has read. -/
theorem readCount_pos {answers : List Answer} {total : Nat} {events : List NetEvent} {err : Bool}
    (htrace : readTrace conn total answers = some (events, err)) : 0 < readCount events := by
  -- the first answer is a read, whatever it says
  cases answers with
  | nil => cases htrace
  | cons answer answers =>
    cases answer with
    | failed errno =>
      cases errno with
      | eintr =>
        rw [readTrace, Option.map_eq_some_iff] at htrace
        obtain ⟨⟨events', err'⟩, -, heq⟩ := htrace
        cases heq
        simp [readCount]
      | eagain | other => cases htrace; exact Nat.one_pos
    | got bytes fits =>
      cases bytes with
      | nil => cases htrace; exact Nat.one_pos
      | cons b bytes =>
        rw [readTrace] at htrace
        split at htrace
        · cases htrace
          rw [← List.append_nil (readEvents conn _), readCount_readEvents]
          exact Nat.succ_pos _
        · rw [Option.map_eq_some_iff] at htrace
          obtain ⟨⟨events', err'⟩, -, heq⟩ := htrace
          cases heq
          rw [readCount_readEvents]
          exact Nat.succ_pos _

theorem eventCall_eq_some {w : Sockets} {uid : UInt32} {stale : Bool} {k : Socket}
    (h : eventCall w uid stale = some (conn, k)) : w.net.pc = .waiting ∧
      w.net.connectorList.get uid = .ok (some conn) := by
  unfold eventCall at h
  split at h
  · rename_i hpc hget
    refine ⟨hpc, ?_⟩
    split at h
    · cases h; exact hget
    · split at h
      · cases h; exact hget
      · cases h
  · cases h

/-! ## Runs -/

/-- What every run keeps. -/
structure SocketsOk (w : Sockets) : Prop where
  wf : w.net.Wf
  noticed : AllDrained w → ∀ a, (w.socket a).Noticed

theorem socketStep_readEvent {w w' : Sockets} (hok : SocketsOk w) {uid : UInt32} {stale : Bool}
    {moments : List Socket.Moment} {now : Int}
    (h : socketStep server w (.readEvent uid stale moments now) = .ok w') :
    SocketsOk w' ∧
      (AllDrained w' ↔ AllDrained w ∧ HidesNoEnd w (.readEvent uid stale moments now)) := by
  -- a call that reads nothing leaves every socket as it was
  have hquiet : (∀ conn k, eventCall w uid stale = some (conn, k) → ¬ k.HidesEnd moments) →
      SocketsOk w ∧ (AllDrained w ↔
        AllDrained w ∧ HidesNoEnd w (.readEvent uid stale moments now)) :=
    fun hno => ⟨hok, (and_iff_left hno).symm⟩
  unfold socketStep at h
  dsimp only at h
  split at h
  · rename_i hcall
    cases h
    apply hquiet
    intro conn k hcall'
    rw [hcall] at hcall'
    cases hcall'
  · rename_i conn k hcall
    obtain ⟨hpc, hget⟩ := eventCall_eq_some hcall
    split at h
    · cases h
    · rename_i t hstep
      have hread : readData server w.net uid (k.answers moments) now = .ok t := by
        simpa only [step, hpc] using hstep
      obtain ⟨_, hsim⟩ := step_simulates hok.wf hstep
      rcases readData_trace hok.wf hpc hget hread with ⟨htrace, rfl⟩ | ⟨events, err, htrace, hlog⟩
      -- the call is not over
      · rw [List.drop_length] at h
        cases h
        apply hquiet
        intro conn' k' hcall' hhides
        cases hcall.symm.trans hcall'
        exact readTrace_ne_none_of_hidesEnd hhides 0 htrace
      -- the reads of this call are those its events record
      · have hcount : readCount (t.log.drop w.net.log.length) = readCount events := by
          rw [hlog, List.drop_left]
          cases err <;> simp [readCount]
        rw [hcount, if_neg (Nat.ne_of_gt (readCount_pos htrace))] at h
        cases h
        have hleft := drained_iff htrace
        -- the only call this step adds is that of `conn`
        have hcond : HidesNoEnd w (.readEvent uid stale moments now) ↔ ¬ k.HidesEnd moments := by
          constructor
          · intro hno
            exact hno conn k hcall
          · intro hno conn' k' hcall'
            cases hcall.symm.trans hcall'
            exact hno
        -- so all are drained if they were and this one is
        have hall : AllDrained ⟨t, fun a => if a = conn then
            k.after (moments.take (readCount events)) else w.socket a,
            w.calls ++ [k.after (moments.take (readCount events))]⟩ ↔
            AllDrained w ∧ (k.after (moments.take (readCount events))).Drained := by
          simp only [AllDrained, List.mem_append, List.mem_singleton, or_imp, forall_and, forall_eq]
        refine ⟨⟨hsim.wf, ?_⟩, hall.trans (and_congr_right fun _ => hleft.trans hcond.symm)⟩
        intro hdrained a
        obtain ⟨hbefore, hnow⟩ := hall.mp hdrained
        dsimp only
        split
        · exact .inl hnow
        · exact hok.noticed hbefore a

/-- **Step**: a call drains its socket exactly when it hides no end of file; while all calls do,
whatever is left in a socket has a report pending. -/
theorem socketStep_spec (server : Server) (w : Sockets) (act : SocketAction) (w' : Sockets)
    (hok : SocketsOk w) (h : socketStep server w act = .ok w') :
    SocketsOk w' ∧ (AllDrained w' ↔ AllDrained w ∧ HidesNoEnd w act) := by
  cases act with
  | arrives conn arrival =>
    cases h
    refine ⟨⟨hok.wf, ?_⟩, (and_iff_left trivial).symm⟩
    intro hdrained a
    dsimp only
    split
    · exact (hok.noticed hdrained a).arrive arrival
    · exact hok.noticed hdrained a
  | readEvent uid stale moments now => exact socketStep_readEvent hok h
  | other act =>
    have hresult : w' = w ∨ ∃ t, step server w.net act = .ok t ∧ w' = { w with net := t } := by
      unfold socketStep at h
      split at h
      · rename_i heq
        cases heq
      · rename_i heq
        cases heq
      · cases h
        exact .inl rfl
      · split at h
        · cases h
        · rename_i heq _ t hstep
          cases h
          cases heq
          exact .inr ⟨t, hstep, rfl⟩
    refine ⟨?_, ?_⟩
    · rcases hresult with rfl | ⟨t, hstep, rfl⟩
      · exact hok
      · obtain ⟨_, hsim⟩ := step_simulates hok.wf hstep
        exact ⟨hsim.wf, hok.noticed⟩
    · rcases hresult with rfl | ⟨t, hstep, rfl⟩
      · exact (and_iff_left trivial).symm
      · exact (and_iff_left trivial).symm

/-- **Edge-triggered reading**: in every run, the calls of `read_data` leave neither bytes nor an
unseen end of file in their sockets exactly when none of them ends with a short read behind which
the end of file has already arrived; and then whatever is left in a socket has a report pending. -/
theorem reads_miss_nothing (server : Server) (maxSize : Nat) (now : Int) (connectors : Connectors)
    (as : List SocketAction) (w : Sockets)
    (hrun : run (socketStep server) (Sockets.init server maxSize now connectors) as = .ok w) :
    (AllDrained w ↔
      Along (socketStep server) HidesNoEnd (Sockets.init server maxSize now connectors) as) ∧
    (AllDrained w → ∀ a, (w.socket a).Noticed) := by
  have hok : SocketsOk (Sockets.init server maxSize now connectors) :=
    ⟨wf_init server maxSize now connectors, fun _ _ => .inl ⟨rfl, fun h => nomatch h⟩⟩
  have hinit : AllDrained (Sockets.init server maxSize now connectors) := fun _ h => nomatch h
  constructor
  · rw [run_iff_along (socketStep_spec server) hok hrun]
    exact and_iff_right hinit
  · have hend : SocketsOk w := run_invariant' (fun w act w' hw h =>
      (socketStep_spec server w act w' hw h).1) hok hrun
    exact hend.noticed

/-- A connection is opened and its peer sends ten bytes. -/
def tenBytes : List SocketAction :=
  opening.map .other ++ [.arrives 0 (.bytes (List.replicate 10 97))]

/-- One read event with one moment, in which nothing more comes. -/
def readOnce : SocketAction := .readEvent 1 false [⟨[], none⟩] 0

set_option maxRecDepth 20000 in
/-- The ten bytes are read. -/
theorem reads_miss_nothing_ten :
    ∃ w, run (socketStep soleServer)
      (Sockets.init soleServer ThreadQueue.defaultMaxSize 0 blankConnectors)
      (tenBytes ++ [readOnce]) = .ok w ∧
      AllDrained w ∧ Along (socketStep soleServer) HidesNoEnd
        (Sockets.init soleServer ThreadQueue.defaultMaxSize 0 blankConnectors)
        (tenBytes ++ [readOnce]) ∧ ∀ a, (w.socket a).Noticed := by
  obtain ⟨w, hrun, left, hcalls, hunread, heof⟩ : ∃ w, run (socketStep soleServer)
      (Sockets.init soleServer ThreadQueue.defaultMaxSize 0 blankConnectors)
      (tenBytes ++ [readOnce]) = .ok w ∧
        ∃ left, w.calls = [left] ∧ left.unread = [] ∧ left.eof = false :=
    ⟨_, rfl, _, rfl, rfl, rfl⟩
  have hall : AllDrained w := fun k hk => by
    rw [hcalls] at hk
    rw [List.mem_singleton.mp hk]
    exact ⟨hunread, fun hend => by rw [heof] at hend; cases hend⟩
  obtain ⟨hiff, hnoticed⟩ := reads_miss_nothing soleServer ThreadQueue.defaultMaxSize 0
    blankConnectors _ w hrun
  exact ⟨w, hrun, hall, hiff.mp hall, hnoticed hall⟩

set_option maxRecDepth 20000 in
/-- The end of file comes together with the ten bytes. The call reads the bytes, no report is
pending any more, and the end of file stays unseen. -/
theorem reads_miss_end :
    ∃ w, run (socketStep soleServer)
      (Sockets.init soleServer ThreadQueue.defaultMaxSize 0 blankConnectors)
      (tenBytes ++ [.arrives 0 .eof, readOnce]) = .ok w ∧ w.net.pc = .waiting ∧
      w.net.sendlist.queue = [] ∧ ¬ AllDrained w ∧ ¬ (w.socket 0).Noticed := by
  refine ⟨_, rfl, rfl, rfl, ?_, ?_⟩
  · intro hall
    have hleft := (hall ⟨[], true, false, false, fun _ => rfl⟩ (List.mem_singleton_self _)).2 rfl
    cases hleft
  · rintro (⟨-, hseen⟩ | hreported)
    · cases hseen rfl
    · cases hreported

end NetThread

end Sails.Net
