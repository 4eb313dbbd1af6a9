import Sails.Net.NetThread.Simulation

/-!
# The reading loop of `read_data`

- `readTrace`: what the loop does, from the answers of `::read` alone
- `notOffered`: the bytes a call reads behind its last `ParseImp`
- `Stragglers`: what the answers are when there are such bytes
- `received_data_offered`: in a run whose calls have none, all that is read is offered to the parser
-/

namespace Sails.Net

open TransitionRun
open CMemory
open Sails.Base

namespace NetThread

/-- The kernel's answer to a read of `READBYTES` bytes. -/
abbrev Answer := ReadAnswer Connector.readBytes

variable {server : Server} {s t : NetThread} {conn : ConnectorPtr}

/-! ## What the loop does -/

/-- A read that brings the bytes of this call to `total`, and `ParseImp` if that is 4k or more, as
an `int`. -/
def readEvents (conn : ConnectorPtr) (total : Nat) : List NetEvent :=
  if 4096 ≤ toInt32 total then [.read conn, .parsed conn] else [.read conn]

/-- The events of the loop and whether it ends in an error, if it ends with these answers. -/
def readTrace (conn : ConnectorPtr) (totalNum : Nat) : List Answer → Option (List NetEvent × Bool)
  | [] => none
  | .failed .eintr :: answers =>
    (readTrace conn totalNum answers).map fun r => (.read conn :: r.1, r.2)
  | .failed errno :: _ => some ([.read conn], decide (errno ≠ .eagain))
  | .got [] _ :: _ => some ([.read conn], true)
  | .got (_ :: bytes) _ :: answers =>
    let total := totalNum + (bytes.length + 1)
    if bytes.length + 1 < Connector.readBytes then some (readEvents conn total, false)
    else (readTrace conn total answers).map fun r => (readEvents conn total ++ r.1, r.2)

/-- A read on an open connector asks the kernel. -/
theorem read_open {c : Connector} (hopen : c.isOpen = true) (answer : Answer) :
    ∃ c', c.read answer = .ok (c', answer.count) ∧ c'.isOpen = true := by
  obtain ⟨b, hok, -⟩ := c.inBuf.read_spec Connector.readBytes answer
  refine ⟨{ c with inBuf := b }, ?_, hopen⟩
  unfold Connector.read
  rw [if_pos hopen, hok]

/-- A round of the loop that reads bytes. -/
theorem readLoop_got {c c₁ : Connector} {b : UInt8} {bytes : Bytes}
    {fits : (b :: bytes).length ≤ Connector.readBytes}
    (hread : c.read (.got (b :: bytes) fits) = .ok (c₁, ((bytes.length + 1 : Nat) : Int)))
    (total : Nat) (events : List NetEvent) (answers : List Answer) :
    readLoop server conn c (toInt32 total) events (.got (b :: bytes) fits :: answers) =
      let c₂ := if 4096 ≤ toInt32 (total + (bytes.length + 1)) then parse server c₁ else c₁
      let events := events ++ readEvents conn (total + (bytes.length + 1))
      if bytes.length + 1 < Connector.readBytes then .ok (some (c₂, events, false))
      else readLoop server conn c₂ (toInt32 (total + (bytes.length + 1))) events answers := by
  rw [readLoop, hread]
  simp only [toInt32_add, readEvents, Int.ofNat_lt]
  rw [if_neg (by omega), if_pos (by omega)]
  by_cases hfull : 4096 ≤ toInt32 (total + (bytes.length + 1))
  · simp only [decide_eq_true hfull, if_true, if_pos hfull, List.append_assoc,
      List.singleton_append]
  · simp only [decide_eq_false hfull, Bool.false_eq_true, if_false, if_neg hfull]

/-- On an open connector the loop does what its trace says. -/
theorem readLoop_eq_trace (server : Server) (conn : ConnectorPtr) {c : Connector}
    (hopen : c.isOpen = true) (total : Nat) (events : List NetEvent) (answers : List Answer) :
    (readTrace conn total answers = none ∧
      readLoop server conn c (toInt32 total) events answers = .ok none) ∨
    ∃ c' events' err, readTrace conn total answers = some (events', err) ∧ c'.isOpen = true ∧
      readLoop server conn c (toInt32 total) events answers =
        .ok (some (c', events ++ events', err)) := by
  -- by induction on the answers: the connection stays open, so the loop follows its trace
  induction answers generalizing c total events with
  | nil => exact .inl ⟨rfl, rfl⟩
  | cons answer answers ih =>
    obtain ⟨c₁, hread, hopen₁⟩ := read_open hopen answer
    cases answer with
    | failed errno =>
      cases errno with
      | eintr =>
        have hloop : readLoop server conn c (toInt32 total) events (.failed .eintr :: answers) =
            readLoop server conn c₁ (toInt32 total) (events ++ [.read conn]) answers := by
          rw [readLoop, hread]
          exact if_pos ⟨rfl, rfl⟩
        rw [hloop]
        rcases ih hopen₁ total (events ++ [.read conn]) with ⟨htrace, hnone⟩ |
          ⟨c', events', err, htrace, hopen', hsome⟩
        · exact .inl ⟨by rw [readTrace, htrace]; rfl, hnone⟩
        · refine .inr ⟨c', .read conn :: events', err, by rw [readTrace, htrace]; rfl, hopen', ?_⟩
          rw [hsome, List.append_assoc]
          rfl
      | eagain | other =>
        refine .inr ⟨c₁, [.read conn], _, rfl, hopen₁, ?_⟩
        rw [readLoop, hread]
        rfl
    | got bytes fits =>
      cases bytes with
      | nil =>
        refine .inr ⟨c₁, [.read conn], true, rfl, hopen₁, ?_⟩
        rw [readLoop, hread]
        rfl
      | cons b bytes =>
        have hopenp : (parse server c₁).isOpen = true := hopen₁
        -- the bytes are parsed at once when enough have come, in `int`s
        let c₂ := if 4096 ≤ toInt32 (total + (bytes.length + 1)) then parse server c₁ else c₁
        have hopen₂ : c₂.isOpen = true := by
          simp only [c₂]
          split
          · exact hopen₁
          · exact hopen₁
        rw [readLoop_got hread, readTrace]
        by_cases hshort : bytes.length + 1 < Connector.readBytes
        · right
          -- a short read ends the loop
          refine ⟨c₂, readEvents conn (total + (bytes.length + 1)), false, if_pos hshort, hopen₂, ?_⟩
          exact if_pos hshort
        · simp only [if_neg hshort]
          rcases ih hopen₂ (total + (bytes.length + 1))
              (events ++ readEvents conn (total + (bytes.length + 1))) with
            ⟨htrace, hnone⟩ | ⟨c', events', err, htrace, hopen', hsome⟩
          · exact .inl ⟨by rw [htrace]; rfl, hnone⟩
          · refine .inr ⟨c', readEvents conn (total + (bytes.length + 1)) ++ events', err, ?_,
              hopen', ?_⟩
            · rw [htrace]
              rfl
            · rw [← List.append_assoc]
              exact hsome

/-- What a call of `read_data` on a listed connection does: the loop's trace and, unless the loop
ends in an error, `ParseImp`. -/
theorem readData_trace (hwf : s.Wf) (hpc : s.pc = .waiting) {uid : UInt32}
    (hget : s.connectorList.get uid = .ok (some conn)) {answers : List Answer} {now : Int}
    (h : readData server s uid answers now = .ok t) :
    (readTrace conn 0 answers = none ∧ t = s) ∨
    ∃ events err, readTrace conn 0 answers = some (events, err) ∧
      t.log = s.log ++ (events ++ if err then [] else [.parsed conn]) := by
  -- a listed connection is open unless a close has begun, and none has
  have hopen : (s.connectors conn).isOpen = true := by
    rcases hwf.isOpen _ _ (ConnectorList.get_eq_some.mp hget).2 with ho | ⟨uid', hclosing⟩
    · exact ho
    · rw [hpc] at hclosing
      cases hclosing
  have hzero : toInt32 0 = 0 := rfl
  simp only [readData, hget] at h
  rcases readLoop_eq_trace server conn hopen 0 [] answers with
    ⟨htrace, hloop⟩ | ⟨c, events, err, htrace, -, hloop⟩
  · rw [hzero] at hloop
    rw [hloop] at h
    cases h
    exact .inl ⟨htrace, rfl⟩
  · refine .inr ⟨events, err, htrace, ?_⟩
    rw [hzero, List.nil_append] at hloop
    rw [hloop] at h
    simp only [readEnd] at h
    split at h
    · rename_i herr
      cases h
      rw [herr, if_pos rfl, List.append_nil]
      split
      · rfl
      -- at the end of the stream a close is requested, which logs nothing
      · obtain ⟨pc, hrequest, -⟩ := requestClose_eq server ((s.setConnector conn c).emit events)
          conn .clientClosed none
        rw [hrequest]
        rfl
    · rename_i herr
      split at h
      · cases h
      · cases h
        rw [if_neg herr, ← List.append_assoc]
        rfl

/-! ## What is offered to the parser -/

/-- The bytes read and not yet offered to the parser after these events, if each `read` got the
next answer. -/
def notOffered (bytes : Bytes) : List NetEvent → List Answer → Bytes
  | .read _ :: events, answer :: answers => notOffered (bytes ++ answer.bytes) events answers
  | .parsed _ :: events, answers => notOffered [] events answers
  | _, _ => bytes

/-- The kernel's answer is an end of file, or an error that ends the connection. -/
def endsInput : Answer → Bool
  | .failed errno => decide (errno = .other)
  | .got bytes _ => bytes.isEmpty

/-- The input ends after this many full reads. -/
inductive EndsAfter : Nat → List Answer → Prop
  | now {answer answers} : endsInput answer = true → EndsAfter 0 (answer :: answers)
  | interrupted {n answers} : EndsAfter n answers → EndsAfter n (.failed .eintr :: answers)
  | full {n answer answers} : answer.bytes.length = Connector.readBytes → EndsAfter n answers →
      EndsAfter (n + 1) (answer :: answers)

theorem endsAfter_cons {n : Nat} {answer : Answer} {answers : List Answer} :
    EndsAfter n (answer :: answers) ↔ (n = 0 ∧ endsInput answer = true) ∨
      (answer = .failed .eintr ∧ EndsAfter n answers) ∨
      ∃ m, n = m + 1 ∧ answer.bytes.length = Connector.readBytes ∧ EndsAfter m answers := by
  constructor
  · intro h
    cases h with
    | now hends => exact .inl ⟨rfl, hends⟩
    | interrupted hrest => exact .inr (.inl ⟨rfl, hrest⟩)
    | full hlen hrest => exact .inr (.inr ⟨_, rfl, hlen, hrest⟩)
  · rintro (⟨rfl, hends⟩ | ⟨rfl, hrest⟩ | ⟨m, rfl, hlen, hrest⟩)
    · exact .now hends
    · exact .interrupted hrest
    · exact .full hlen hrest

/-- The input ends after at least one full read, where the count is below 4k, if `n` full reads came
before. The count is an `int`, so that it is below again once it has wrapped. -/
def StragglersAfter (n : Nat) (answers : List Answer) : Prop :=
  ∃ m, EndsAfter m answers ∧ 0 < n + m ∧ toInt32 ((n + m) * Connector.readBytes) < 4096

/-- The input ends after at least one full read, where the count is below 4k. -/
def Stragglers (answers : List Answer) : Prop := StragglersAfter 0 answers

section Stragglers

variable {n : Nat} {bytes : Bytes} {answers : List Answer} {events : List NetEvent}

/-- A read and perhaps a `ParseImp`. -/
theorem notOffered_readEvents (total : Nat) (answer : Answer) :
    notOffered bytes (readEvents conn total ++ events) (answer :: answers) =
      notOffered (if 4096 ≤ toInt32 total then [] else bytes ++ answer.bytes) events answers := by
  unfold readEvents
  split
  · cases answers <;> rfl
  · rfl

theorem notOffered_parsed (bytes : Bytes) (conn : ConnectorPtr) (answers : List Answer) :
    notOffered bytes [.parsed conn] answers = [] := by
  cases answers <;> rfl

/-- A read that brings nothing, and nothing more. -/
theorem notOffered_end {answer : Answer} (h : answer.bytes = []) :
    notOffered bytes [.read conn] (answer :: answers) = [] ↔ bytes = [] := by
  have hnil : notOffered bytes [.read conn] (answer :: answers) = bytes ++ answer.bytes := by
    cases answers <;> rfl
  rw [hnil, h, List.append_nil]

/-- Where the loop ends at once, stragglers are what was read before. -/
theorem stragglersAfter_of_ends {answer : Answer} (hends : endsInput answer = true) :
    StragglersAfter n (answer :: answers) ↔ 0 < n ∧ toInt32 (n * Connector.readBytes) < 4096 := by
  constructor
  · rintro ⟨m, hafter, hpos, hlt⟩
    rcases endsAfter_cons.mp hafter with ⟨rfl, -⟩ | ⟨rfl, -⟩ | ⟨k, -, hlen, -⟩
    · exact ⟨hpos, hlt⟩
    · cases hends
    -- a full read is not the end
    · cases answer with
      | failed errno => cases hlen
      | got bytes fits =>
        cases bytes with
        | nil => cases hlen
        | cons b bytes => cases hends
  · rintro ⟨hpos, hlt⟩
    exact ⟨0, .now hends, hpos, hlt⟩

theorem stragglersAfter_eintr :
    StragglersAfter n (.failed .eintr :: answers) ↔ StragglersAfter n answers := by
  refine exists_congr fun m => and_congr_left fun _ => ?_
  rw [endsAfter_cons]
  constructor
  · rintro (⟨-, hends⟩ | ⟨-, hrest⟩ | ⟨k, -, hlen, -⟩)
    · cases hends
    · exact hrest
    · cases hlen
  · intro hrest
    exact .inr (.inl ⟨rfl, hrest⟩)

theorem stragglersAfter_full {answer : Answer} (hlen : answer.bytes.length = Connector.readBytes) :
    StragglersAfter n (answer :: answers) ↔ StragglersAfter (n + 1) answers := by
  constructor
  · rintro ⟨m, hafter, hpos, hlt⟩
    rcases endsAfter_cons.mp hafter with ⟨-, hends⟩ | ⟨rfl, -⟩ | ⟨k, rfl, -, hrest⟩
    · cases answer with
      | failed errno => cases hlen
      | got bytes fits =>
        cases bytes with
        | nil => cases hlen
        | cons b bytes => cases hends
    · cases hlen
    · refine ⟨k, hrest, by omega, ?_⟩
      rw [Nat.add_assoc, Nat.add_comm 1 k]
      exact hlt
  · rintro ⟨k, hrest, hpos, hlt⟩
    refine ⟨k + 1, .full hlen hrest, by omega, ?_⟩
    rw [← Nat.add_assoc, Nat.add_right_comm]
    exact hlt

theorem not_stragglersAfter_of_quiet {answer : Answer} (hends : endsInput answer = false)
    (heintr : answer ≠ .failed .eintr) (hlen : answer.bytes.length ≠ Connector.readBytes) :
    ¬ StragglersAfter n (answer :: answers) := by
  rintro ⟨m, hafter, -⟩
  rcases endsAfter_cons.mp hafter with ⟨-, hends'⟩ | ⟨heq, -⟩ | ⟨k, -, hlen', -⟩
  · exact absurd (hends.symm.trans hends') (by decide)
  · exact heintr heq
  · exact hlen hlen'

/-- **One call**: what the call read is offered before its end, unless the input ends with
stragglers. Induction on the answers; before each of them there were `n` full reads, and bytes of
theirs wait for the parser as long as the count is below 4k. -/
theorem notOffered_trace {err : Bool}
    (htrace : readTrace conn (n * Connector.readBytes) answers = some (events, err))
    (hbytes : bytes = [] ↔ n = 0 ∨ 4096 ≤ toInt32 (n * Connector.readBytes)) :
    notOffered bytes (events ++ if err then [] else [.parsed conn]) answers = [] ↔
      ¬ StragglersAfter n answers := by
  -- what is read and not offered is there between two multiples of 4096
  have hbytes' : bytes = [] ↔ ¬ (0 < n ∧ toInt32 (n * Connector.readBytes) < 4096) := by
    rw [hbytes]
    omega
  -- by induction on the answers; only one that ends the connection leaves stragglers
  induction answers generalizing n bytes events err with
  | nil => cases htrace
  | cons answer answers ih =>
    cases answer with
    | failed errno =>
      cases errno with
      | eintr =>
        rw [readTrace, Option.map_eq_some_iff] at htrace
        obtain ⟨⟨events', err'⟩, htrace', heq⟩ := htrace
        cases heq
        rw [stragglersAfter_eintr, List.cons_append, notOffered, ReadAnswer.bytes, List.append_nil]
        exact ih htrace' hbytes hbytes'
      | eagain =>
        cases htrace
        have hquiet : ¬ StragglersAfter n (.failed .eagain :: answers) :=
          not_stragglersAfter_of_quiet rfl (by simp) (by decide)
        exact iff_of_true (notOffered_parsed (bytes ++ []) conn answers) hquiet
      | other =>
        cases htrace
        rw [stragglersAfter_of_ends rfl, ← hbytes']
        exact notOffered_end rfl
    | got bytes' fits =>
      cases bytes' with
      | nil =>
        cases htrace
        rw [stragglersAfter_of_ends rfl, ← hbytes']
        exact notOffered_end rfl
      | cons b bytes' =>
        rw [readTrace] at htrace
        split at htrace
        · rename_i hshort
          cases htrace
          -- behind a short read all is offered
          have hlen : (ReadAnswer.got (b :: bytes') fits).bytes.length ≠ Connector.readBytes :=
            Nat.ne_of_lt hshort
          refine iff_of_true ?_ (not_stragglersAfter_of_quiet rfl (by simp) hlen)
          rw [notOffered_readEvents]
          exact notOffered_parsed _ conn answers
        · rename_i hfull
          have hlen : (ReadAnswer.got (b :: bytes') fits).bytes.length = Connector.readBytes :=
            Nat.le_antisymm fits (Nat.not_lt.mp hfull)
          -- behind a full one the total grows by a buffer
          have hsum : n * Connector.readBytes + (bytes'.length + 1) =
              (n + 1) * Connector.readBytes := by
            rw [Nat.succ_mul]
            exact congrArg _ hlen
          rw [hsum, Option.map_eq_some_iff] at htrace
          obtain ⟨⟨events', err'⟩, htrace', heq⟩ := htrace
          cases heq
          rw [stragglersAfter_full hlen, List.append_assoc, notOffered_readEvents]
          have hnext : (if 4096 ≤ toInt32 ((n + 1) * Connector.readBytes) then [] else
              bytes ++ (ReadAnswer.got (b :: bytes') fits).bytes) = [] ↔
                n + 1 = 0 ∨ 4096 ≤ toInt32 ((n + 1) * Connector.readBytes) := by
            split
            · rename_i hpast
              exact iff_of_true rfl (.inr hpast)
            · rename_i hbefore
              refine iff_of_false ?_ (by omega)
              simp [ReadAnswer.bytes]
          exact ih htrace' hnext (hnext.trans (by omega))

end Stragglers

/-- Where the input ends, the loop is over. -/
theorem readTrace_ne_none {n : Nat} {answers : List Answer} (h : EndsAfter n answers)
    (total : Nat) : readTrace conn total answers ≠ none := by
  -- by induction on where the answers end the connection
  induction h generalizing total with
  | @now answer answers hends =>
    cases answer with
    | failed errno =>
      cases errno with
      | eintr => cases hends
      | eagain | other => simp [readTrace]
    | got bytes fits =>
      cases bytes with
      | nil => simp [readTrace]
      | cons b bytes => cases hends
  | interrupted _ ih =>
    rw [readTrace, Ne, Option.map_eq_none_iff]
    exact ih total
  | @full n answer answers hlen _ ih =>
    cases answer with
    | failed errno => cases hlen
    | got bytes fits =>
      cases bytes with
      | nil => cases hlen
      | cons b bytes =>
        rw [readTrace]
        split
        · simp
        · rw [Ne, Option.map_eq_none_iff]
          exact ih _

/-! ## Every call of a run -/

/-- A net thread, and what each call of `read_data` on a connection so far has read and not
offered to the parser. -/
structure Reads where
  net : NetThread
  calls : List (ConnectorPtr × Bytes)

/-- The call of `read_data` on a connection that this step makes. -/
def readCall (s : NetThread) : Action → Option (ConnectorPtr × List Answer)
  | .readEvent uid answers _ =>
    match s.pc, s.connectorList.get uid with
    | .waiting, .ok (some conn) => some (conn, answers)
    | _, _ => none
  | _ => none

/-- One step; a call of `read_data` is recorded. -/
def readsStep (server : Server) (r : Reads) (act : Action) : Except Fault Reads :=
  match step server r.net act with
  | .error e => .error e
  | .ok t =>
    .ok
      { net := t
        calls := r.calls ++ ((readCall r.net act).map fun call =>
          (call.1, notOffered [] (t.log.drop r.net.log.length) call.2)).toList }

def Reads.init (server : Server) (maxSize : Nat) (now : Int) (connectors : Connectors) : Reads :=
  ⟨NetThread.init server maxSize now connectors, []⟩

/-- Everything read was offered to the parser in the call that read it. -/
def AllOffered (r : Reads) : Prop := ∀ call ∈ r.calls, call.2 = []

/-- The step does not read up to an end of the input that comes with stragglers. -/
def NoStragglers (r : Reads) (act : Action) : Prop :=
  ∀ call, readCall r.net act = some call → ¬ Stragglers call.2

theorem readCall_eq_some {act : Action} {call : ConnectorPtr × List Answer}
    (h : readCall s act = some call) : ∃ uid now, act = .readEvent uid call.2 now ∧
      s.pc = .waiting ∧ s.connectorList.get uid = .ok (some call.1) := by
  unfold readCall at h
  split at h
  · rename_i uid answers now
    split at h
    · rename_i hpc hget
      cases h
      exact ⟨uid, now, rfl, hpc, hget⟩
    · cases h
  · cases h

/-- **Step**: a call leaves nothing unoffered exactly when its input does not end with
stragglers. -/
theorem readsStep_spec (server : Server) (r : Reads) (act : Action) (r' : Reads) (hwf : r.net.Wf)
    (h : readsStep server r act = .ok r') :
    r'.net.Wf ∧ (AllOffered r' ↔ AllOffered r ∧ NoStragglers r act) := by
  unfold readsStep at h
  split at h
  · cases h
  · rename_i t hstep
    cases h
    obtain ⟨_, hsim⟩ := step_simulates hwf hstep
    refine ⟨hsim.wf, ?_⟩
    cases hcall : readCall r.net act with
    | none =>
      -- a step that reads nothing offers and withholds nothing
      have hno : NoStragglers r act := by
        intro call hcall'
        rw [hcall] at hcall'
        cases hcall'
      simp only [AllOffered, Option.map_none, Option.toList_none, List.append_nil, hno, and_true]
    | some call =>
      obtain ⟨uid, now, rfl, hpc, hget⟩ := readCall_eq_some hcall
      have hread : readData server r.net uid call.2 now = .ok t := by
        simpa only [step, hpc] using hstep
      -- the events of the call are those of its trace
      have hoffered : notOffered [] (t.log.drop r.net.log.length) call.2 = [] ↔
          ¬ Stragglers call.2 := by
        rcases readData_trace hwf hpc hget hread with ⟨htrace, rfl⟩ | ⟨events, err, htrace, hlog⟩
        · rw [List.drop_length]
          refine iff_of_true (by cases call.2 <;> rfl) ?_
          rintro ⟨n, hends, -⟩
          exact readTrace_ne_none hends 0 htrace
        · rw [hlog, List.drop_left]
          refine notOffered_trace ?_ (iff_of_true rfl (.inl rfl))
          rw [Nat.zero_mul]
          exact htrace
      -- it is the only call of this step
      have hno : NoStragglers r (.readEvent uid call.2 now) ↔ ¬ Stragglers call.2 := by
        constructor
        · intro h
          exact h call hcall
        · intro h call' hcall'
          cases hcall.symm.trans hcall'
          exact h
      rw [hno, ← hoffered]
      simp only [AllOffered, Option.map_some, Option.toList_some, List.mem_append,
        List.mem_singleton, or_imp, forall_and, forall_eq]

/-- **Received data is offered**: in every run, all that the calls of `read_data` have read was
offered to the parser, each byte in the call that read it and so before that call asks for the
connection to be closed, exactly when no call reads up to an end of the input that comes after a
full read and where `totalNum` is below 4k. -/
theorem received_data_offered (server : Server) (maxSize : Nat) (now : Int)
    (connectors : Connectors) (as : List Action) (r : Reads)
    (hrun : run (readsStep server) (Reads.init server maxSize now connectors) as = .ok r) :
    AllOffered r ↔
      Along (readsStep server) NoStragglers (Reads.init server maxSize now connectors) as := by
  have hinit : AllOffered (Reads.init server maxSize now connectors) := fun _ h => nomatch h
  rw [run_iff_along (I := fun r : Reads => r.net.Wf) (readsStep_spec server)
    (wf_init server maxSize now connectors) hrun]
  exact and_iff_right hinit

/-- A full read of the byte 'a'. -/
def fullRead : Answer := .got (List.replicate Connector.readBytes 97) (by simp)

/-- A peer that sends 512 bytes and closes at once; both are there at the first read. -/
def sendsAndCloses : List Action := opening ++ [.readEvent 1 [fullRead, .got [] (by decide)] 0]

set_option maxRecDepth 20000 in
/-- A peer sends three bytes and the connection goes on. -/
theorem received_data_offered_short :
    ∃ r, run (readsStep soleServer)
      (Reads.init soleServer ThreadQueue.defaultMaxSize 0 blankConnectors)
      (opening ++ [.readEvent 1 [.got [97, 98, 99] (by decide)] 0]) = .ok r ∧
      AllOffered r ∧ Along (readsStep soleServer) NoStragglers
        (Reads.init soleServer ThreadQueue.defaultMaxSize 0 blankConnectors)
        (opening ++ [.readEvent 1 [.got [97, 98, 99] (by decide)] 0]) := by
  obtain ⟨r, hrun, hcalls⟩ : ∃ r, run (readsStep soleServer)
      (Reads.init soleServer ThreadQueue.defaultMaxSize 0 blankConnectors)
      (opening ++ [.readEvent 1 [.got [97, 98, 99] (by decide)] 0]) = .ok r ∧ r.calls = [(0, [])] :=
    ⟨_, rfl, rfl⟩
  have hall : AllOffered r := fun call hcall => by
    rw [hcalls] at hcall
    rw [List.mem_singleton.mp hcall]
  exact ⟨r, hrun, hall, (received_data_offered soleServer ThreadQueue.defaultMaxSize 0
    blankConnectors _ r hrun).mp hall⟩

set_option maxRecDepth 20000 in
/-- The 512 bytes are never offered, and the net thread asks for the connection to be closed. -/
theorem received_data_not_offered :
    ∃ r, run (readsStep soleServer)
      (Reads.init soleServer ThreadQueue.defaultMaxSize 0 blankConnectors) sendsAndCloses = .ok r ∧
      r.calls = [(0, List.replicate Connector.readBytes 97)] ∧
      r.net.pc = .requesting ⟨⟨.close, 1, CloseConnectorReason.clientClosed.text,
        ascii "1.2.3.4", 80⟩, .testing⟩ none ∧
      ¬ AllOffered r := by
  refine ⟨_, rfl, rfl, rfl, ?_⟩
  intro hall
  have hnil := hall (0, List.replicate Connector.readBytes 97) (List.mem_singleton_self _)
  cases hnil

end NetThread

end Sails.Net
