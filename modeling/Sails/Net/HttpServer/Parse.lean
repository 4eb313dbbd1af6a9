import Sails.Base.Buffer

/-!
# `HttpServer::Parse`: feeding the HTTP parser from a connection's buffer

`Parse` copies the readable bytes of a connector's `in_buf` into a local array with
`strncpy`, measures the copy with `strlen`, and retrieves as many bytes as the parser says
it has consumed. Neither the copy nor the measure knows where the readable region ends, so
the parser sees the connection's stream only while the buffer happens to hold a NUL at the
right place.

- `sailsHttpParser`, `parse`: translated from `http.cc` and `http_server.cc`
- `Terminated`: the buffer is a C string that ends inside the readable region
- `parse_exact_iff`: one call gives the parser bytes of the region exactly then
- `parse_feeds_stream`: a run whose calls all find a terminated buffer feeds the stream

The vendored `http_parser_execute`, together with the callbacks it drives, is a parameter:
from a parser state and the bytes given it makes the next state, the messages it completed
and the number of bytes it consumed.
-/

namespace Sails.Net

open TransitionRun
open CMemory
open Sails.Base

variable {P M : Type}

/-! ## The code -/

/-- The size of the local array of `Parse`. -/
def parseArraySize : Nat := 10000

/-- `http_parser_execute` with the settings of `http.cc`. -/
abbrev Execute (P M : Type) := P → Bytes → P × List M × Nat

/-- One call of `http_parser_execute`: the bytes it was given, the count it returned. -/
structure ParserCall where
  given : Bytes
  consumed : Nat
  deriving DecidableEq

/-- What `Parse` uses of a connector: its input buffer, the parser hung on `data.ptr` and
the parsed messages waiting in the parser's `ParserFlag`. -/
structure HttpConnection (P M : Type) where
  inBuf : Buffer
  parser : Option P
  messageList : List M

/-- `sails_http_parser`: run the parser on the C string in `buf`. -/
def sailsHttpParser (execute : Execute P M) (parser : P) (buf : Bytes) :
    Except Fault (P × List M × ParserCall) := do
  let len ← strlen buf
  let (parser', messages, parsed) := execute parser (buf.take len)
  .ok (parser', messages, ⟨buf.take len, parsed⟩)

/-- The first half of `Parse`: when bytes are readable (a 32-bit count), copy, parse,
retrieve. -/
def parseInput (execute : Execute P M) (parser : P) (c : HttpConnection P M) :
    Except Fault (HttpConnection P M × Option ParserCall) :=
  if c.inBuf.readable % 2 ^ 32 > 0 then do
    let data ← strncpy c.inBuf.peek parseArraySize
    let (parser', messages, call) ← sailsHttpParser execute parser data
    .ok ({ inBuf := if call.consumed > 0 then c.inBuf.retrieve call.consumed else c.inBuf
           parser := some parser'
           messageList := c.messageList ++ messages }, some call)
  else .ok (c, none)

/-- The second half of `Parse`: hand out the oldest complete message. -/
def popMessage (c : HttpConnection P M) : HttpConnection P M × Option M :=
  match c.messageList with
  | [] => (c, none)
  | m :: rest => ({ c with messageList := rest }, some m)

/-- `HttpServer::Parse`, with the call of the parser it made. -/
def parse (execute : Execute P M) (c : HttpConnection P M) :
    Except Fault (HttpConnection P M × Option M × Option ParserCall) :=
  match c.parser with
  | none => .ok (c, none, none)
  | some parser => do
    let (c', call) ← parseInput execute parser c
    let (c'', request) := popMessage c'
    .ok (c'', request, call)

/-! ## When one call is exact -/

/-- The first readable byte is not NUL, and a NUL stands at some offset from `peek()` that is
at most `readable()` and inside the local array. The byte at offset `readable()` is the one
at the write index. -/
structure Terminated (b : Buffer) : Prop where
  first : b.data[b.readIndex]? ≠ some 0
  nul : ∃ k, k ≤ b.readable ∧ k < parseArraySize ∧ b.data[b.readIndex + k]? = some 0

/-- Terminated buffers in terms of the text at `peek()`. -/
theorem terminated_iff_text (b : Buffer) :
    Terminated b ↔ text b.peek ≠ [] ∧ (text b.peek).length ≤ b.readable ∧
      (text b.peek).length < b.peek.length ∧ (text b.peek).length < parseArraySize := by
  have hget : ∀ k, b.data[b.readIndex + k]? = b.peek[k]? := fun k => by
    rw [Buffer.peek, List.getElem?_drop]
  have hmin := length_text_lt_iff (l := b.peek) (n := min (b.readable + 1) parseArraySize)
  -- the offset of the NUL that ends the text is the least offset of a NUL
  have hnul : (∃ k, k ≤ b.readable ∧ k < parseArraySize ∧ b.data[b.readIndex + k]? = some 0) ↔
      (text b.peek).length ≤ b.readable ∧ (text b.peek).length < b.peek.length ∧
        (text b.peek).length < parseArraySize := by
    constructor
    · rintro ⟨k, hk, hsize, hzero⟩
      have := hmin.mpr ⟨k, by omega, by rw [← hget]; exact hzero⟩
      omega
    · rintro ⟨hle, hlt, hsize⟩
      obtain ⟨k, hk, hzero⟩ := hmin.mp ⟨hlt, by omega⟩
      exact ⟨k, by omega, by omega, by rw [hget]; exact hzero⟩
  have hfirst : b.peek ≠ [] → (b.data[b.readIndex]? ≠ some 0 ↔ text b.peek ≠ []) := by
    intro hne
    have h0 := hget 0
    rw [Nat.add_zero] at h0
    rw [h0]
    cases hpeek : b.peek with
    | nil => exact absurd hpeek hne
    | cons c cs =>
      by_cases hc : c = 0
      · simp [hc]
      · simp [text_cons_of_ne hc, hc]
  constructor
  · rintro ⟨h1, h2⟩
    have h3 := hnul.mp h2
    exact ⟨(hfirst (by intro hnil; simp [hnil] at h3)).mp h1, h3⟩
  · rintro ⟨h1, h2⟩
    exact ⟨(hfirst (by rintro hnil; simp [hnil] at h1)).mpr h1, hnul.mpr h2⟩

/-- The parser is given the text at `peek()`, provided that it ends inside the vector and
inside the local array; else the copy or the measure leaves its object. -/
theorem parseInput_eq (execute : Execute P M) (parser : P) (c : HttpConnection P M)
    (hreadable : c.inBuf.readable % 2 ^ 32 > 0) :
    parseInput execute parser c =
      let given := text c.inBuf.peek
      if given.length < c.inBuf.peek.length ∧ given.length < parseArraySize then
        let (parser', messages, parsed) := execute parser given
        .ok ({ inBuf := if parsed > 0 then c.inBuf.retrieve parsed else c.inBuf
               parser := some parser'
               messageList := c.messageList ++ messages }, some ⟨given, parsed⟩)
      else .error .outOfBounds := by
  have hmeasure := strlen_strncpy c.inBuf.peek parseArraySize
  rw [parseInput, if_pos hreadable]
  cases hcopy : strncpy c.inBuf.peek parseArraySize with
  | error e =>
    rw [hcopy] at hmeasure
    by_cases hin : (text c.inBuf.peek).length < c.inBuf.peek.length ∧
        (text c.inBuf.peek).length < parseArraySize
    · rw [if_pos hin] at hmeasure; cases hmeasure
    · rw [if_neg hin] at hmeasure
      simp only [hin, if_false]
      cases hmeasure
      rfl
  | ok data =>
    rw [hcopy] at hmeasure
    change strlen data = _ at hmeasure
    by_cases hin : (text c.inBuf.peek).length < c.inBuf.peek.length ∧
        (text c.inBuf.peek).length < parseArraySize
    · rw [if_pos hin] at hmeasure
      have htake := take_of_strncpy hcopy hin.2.le
      simp [sailsHttpParser, hmeasure, bind, Except.bind, htake, hin]
    · rw [if_neg hin] at hmeasure
      simp [sailsHttpParser, hmeasure, bind, Except.bind, hin]

@[simp] theorem popMessage_inBuf (c : HttpConnection P M) : (popMessage c).1.inBuf = c.inBuf := by
  unfold popMessage
  split <;> rfl

/-- With nothing readable (or a multiple of `2^32` bytes) the parser is not called. -/
theorem parse_idle (execute : Execute P M) (c : HttpConnection P M)
    (hidle : c.parser ≠ none → ¬ c.inBuf.readable % 2 ^ 32 > 0) :
    ∃ c' request, parse execute c = .ok (c', request, none) ∧ c'.inBuf = c.inBuf := by
  cases hparser : c.parser with
  | none => exact ⟨c, none, by simp [parse, hparser], rfl⟩
  | some p =>
    have hnone := hidle (by simp [hparser])
    refine ⟨(popMessage c).1, (popMessage c).2, ?_, popMessage_inBuf c⟩
    simp only [parse, hparser, parseInput, hnone, if_false, bind, Except.bind]

/-- When the text at `peek()` ends inside the vector and the local array, the parser is given
that text, and what it consumes leaves the readable region. -/
theorem parse_call (execute : Execute P M) (p : P) (c : HttpConnection P M)
    (hparser : c.parser = some p) (hreadable : c.inBuf.readable % 2 ^ 32 > 0)
    (hpeek : (text c.inBuf.peek).length < c.inBuf.peek.length)
    (hsize : (text c.inBuf.peek).length < parseArraySize) :
    ∃ c' request parsed, parse execute c = .ok (c', request, some ⟨text c.inBuf.peek, parsed⟩) ∧
      parsed = (execute p (text c.inBuf.peek)).2.2 ∧
      c'.inBuf.content = c.inBuf.content.drop parsed := by
  rcases hexecute : execute p (text c.inBuf.peek) with ⟨parser', messages, parsed⟩
  let c₁ : HttpConnection P M :=
    { inBuf := if parsed > 0 then c.inBuf.retrieve parsed else c.inBuf
      parser := some parser'
      messageList := c.messageList ++ messages }
  refine ⟨(popMessage c₁).1, (popMessage c₁).2, parsed, ?_, rfl, ?_⟩
  · simp only [parse, hparser, parseInput_eq execute p c hreadable, hpeek, hsize, and_self,
      if_true, hexecute, bind, Except.bind, c₁]
  · rw [popMessage_inBuf]
    by_cases hpos : parsed > 0
    · simp only [c₁, hpos, if_true, Buffer.content_retrieve]
    · simp [c₁, show parsed = 0 by omega]

/-- **One call is exact** (it succeeds, it gives the parser bytes that begin the readable
region, and it does not report an end of file) exactly when the buffer is terminated. -/
theorem parse_exact_iff (execute : Execute P M) (parser : P) (c : HttpConnection P M)
    (hparser : c.parser = some parser) (hreadable : c.inBuf.readable % 2 ^ 32 > 0) :
    (∃ c' request call, parse execute c = .ok (c', request, some call) ∧
      call.given <+: c.inBuf.content ∧ call.given ≠ []) ↔ Terminated c.inBuf := by
  have hheld : text c.inBuf.peek <+: c.inBuf.content ↔
      (text c.inBuf.peek).length ≤ c.inBuf.readable := by
    rw [Buffer.content_eq_take_peek, List.prefix_take_iff]
    exact and_iff_right (text_isPrefix _)
  rw [terminated_iff_text]
  simp only [parse, hparser, parseInput_eq execute parser c hreadable, bind, Except.bind]
  by_cases hin : (text c.inBuf.peek).length < c.inBuf.peek.length ∧
      (text c.inBuf.peek).length < parseArraySize
  · simp only [hin, and_self, if_true, and_true]
    constructor
    · rintro ⟨c', request, call, heq, hpre, hne⟩
      cases heq
      exact ⟨hne, hheld.mp hpre⟩
    · rintro ⟨hne, hle⟩
      exact ⟨_, _, _, rfl, hheld.mpr hle, hne⟩
  · simp only [hin, if_false, and_false, iff_false]
    rintro ⟨_, _, _, heq, _⟩
    cases heq

/-! ## Runs of reads and parses -/

/-- A step of a connection's input side: its net thread reads from the socket, or calls
`Parse`. -/
inductive FeedAction where
  | read (len : Nat) (answer : ReadAnswer len)
  | parse

/-- A call of the parser with the readable region of the buffer at that moment. -/
structure FeedCall extends ParserCall where
  region : Bytes

/-- A connection with its history: the bytes read from the socket and the calls made. -/
structure FeedState (P M : Type) where
  conn : HttpConnection P M
  received : Bytes
  calls : List FeedCall

/-- A connection that has just been created, with a fresh parser. -/
def feedInit (parser : P) : FeedState P M where
  conn := { inBuf := Buffer.init, parser := some parser, messageList := [] }
  received := []
  calls := []

def feedStep (execute : Execute P M) (s : FeedState P M) :
    FeedAction → Except Fault (FeedState P M)
  | .read len answer => do
    let (inBuf, _) ← s.conn.inBuf.read len answer
    .ok { s with
      conn := { s.conn with inBuf := inBuf }
      received := s.received ++ answer.bytes }
  | .parse => do
    let (conn, _, call) ← parse execute s.conn
    .ok { s with
      conn := conn
      calls := s.calls ++ call.toList.map fun c => ⟨c, s.conn.inBuf.content⟩ }

/-- The bytes the parser has been given and has reported as consumed. -/
def consumedBytes (calls : List FeedCall) : Bytes :=
  calls.flatMap fun c => c.given.take c.consumed

/-- The parser has been fed exactly the connection's stream so far. -/
structure FeedExact (s : FeedState P M) : Prop where
  /-- what was consumed is a prefix of what was received -/
  consumed_prefix : consumedBytes s.calls <+: s.received
  /-- nothing was skipped or passed twice: what is left of the stream is still readable -/
  consumed_append : s.received = consumedBytes s.calls ++ s.conn.inBuf.content
  /-- every call was given bytes of the readable region only -/
  given_region : ∀ c ∈ s.calls, c.given <+: c.region
  /-- no call meant end of file while bytes were readable -/
  given_nonempty : ∀ c ∈ s.calls, c.region ≠ [] → c.given ≠ []

/-- A call of `Parse` that will run the parser finds a terminated buffer. -/
def InputTerminated (s : FeedState P M) (a : FeedAction) : Prop :=
  a = .parse → s.conn.parser ≠ none → s.conn.inBuf.readable % 2 ^ 32 > 0 →
    Terminated s.conn.inBuf

theorem feedExact_init (parser : P) : FeedExact (feedInit parser : FeedState P M) where
  consumed_prefix := List.prefix_rfl
  consumed_append := by simp [feedInit, consumedBytes]
  given_region := by simp [feedInit]
  given_nonempty := by simp [feedInit]

/-- A read appends what was received to the readable region. -/
theorem feedStep_read (execute : Execute P M) (s : FeedState P M) {len : Nat}
    (answer : ReadAnswer len) (h : FeedExact s) :
    ∃ t, feedStep execute s (.read len answer) = .ok t ∧ FeedExact t := by
  obtain ⟨b, hread, hcontent⟩ := s.conn.inBuf.read_spec len answer
  have hstep : feedStep execute s (.read len answer) =
      .ok { s with
        conn := { s.conn with inBuf := b }
        received := s.received ++ answer.bytes } := by
    simp [feedStep, hread, bind, Except.bind]
  refine ⟨_, hstep, ?_⟩
  exact
    { consumed_prefix := h.consumed_prefix.trans (List.prefix_append _ _)
      consumed_append := by
        simp only [hcontent]
        rw [← List.append_assoc, ← h.consumed_append]
      given_region := h.given_region
      given_nonempty := h.given_nonempty }

/-- A call that is not made, or is made on a terminated buffer, keeps the feed exact. -/
theorem feedStep_parse {execute : Execute P M}
    (hexec : ∀ p bs, bs ≠ [] → (execute p bs).2.2 ≤ bs.length) (s : FeedState P M)
    (h : FeedExact s) (hterm : InputTerminated s .parse) :
    ∃ t, feedStep execute s .parse = .ok t ∧ FeedExact t := by
  by_cases hcall : s.conn.parser ≠ none ∧ s.conn.inBuf.readable % 2 ^ 32 > 0
  · obtain ⟨hparser, hreadable⟩ := hcall
    obtain ⟨p, hp⟩ := Option.ne_none_iff_exists'.mp hparser
    obtain ⟨hne, hle, hpeek, hsize⟩ := (terminated_iff_text _).mp (hterm rfl hparser hreadable)
    obtain ⟨c', request, parsed, hparse, hcount, hcontent⟩ := parse_call execute p s.conn hp
      hreadable hpeek hsize
    have hparsed : parsed ≤ (text s.conn.inBuf.peek).length := hcount ▸ hexec p _ hne
    have hheld : text s.conn.inBuf.peek <+: s.conn.inBuf.content := by
      rw [Buffer.content_eq_take_peek, List.prefix_take_iff]
      exact ⟨text_isPrefix _, hle⟩
    -- the consumed bytes are the first bytes of the region
    have htake : (text s.conn.inBuf.peek).take parsed = s.conn.inBuf.content.take parsed := by
      obtain ⟨r, hr⟩ := hheld
      rw [← hr, List.take_append_of_le_length hparsed]
    let call : FeedCall := ⟨⟨text s.conn.inBuf.peek, parsed⟩, s.conn.inBuf.content⟩
    let t : FeedState P M := { s with conn := c', calls := s.calls ++ [call] }
    have hstep : feedStep execute s .parse = .ok t := by
      simp [feedStep, hparse, bind, Except.bind, t, call]
    have hconsumed : consumedBytes t.calls =
        consumedBytes s.calls ++ s.conn.inBuf.content.take parsed := by
      simp [t, call, consumedBytes, htake]
    have happend : t.received = consumedBytes t.calls ++ t.conn.inBuf.content := by
      calc t.received = consumedBytes s.calls ++ s.conn.inBuf.content := h.consumed_append
        _ = consumedBytes s.calls ++
              (s.conn.inBuf.content.take parsed ++ s.conn.inBuf.content.drop parsed) := by
            rw [List.take_append_drop]
        _ = consumedBytes t.calls ++ t.conn.inBuf.content := by
            rw [hconsumed, List.append_assoc, hcontent]
    refine ⟨t, hstep, ⟨⟨_, happend.symm⟩, happend, ?_, ?_⟩⟩
    · intro c hc
      rcases List.mem_append.mp hc with hc | hc
      · exact h.given_region c hc
      · rw [List.mem_singleton.mp hc]; exact hheld
    · intro c hc hregion
      rcases List.mem_append.mp hc with hc | hc
      · exact h.given_nonempty c hc hregion
      · rw [List.mem_singleton.mp hc]; exact hne
  · obtain ⟨c', request, hparse, hbuf⟩ := parse_idle execute s.conn
      fun hparser hreadable => hcall ⟨hparser, hreadable⟩
    have hstep : feedStep execute s .parse = .ok { s with conn := c' } := by
      simp [feedStep, hparse, bind, Except.bind]
    refine ⟨_, hstep, ⟨h.consumed_prefix, ?_, h.given_region, h.given_nonempty⟩⟩
    rw [hbuf]
    exact h.consumed_append

/-- **The stream reaches the parser intact** in every run of socket reads and `Parse` calls in
which each call that runs the parser finds a terminated buffer. -/
theorem parse_feeds_stream (execute : Execute P M)
    (hexec : ∀ p bs, bs ≠ [] → (execute p bs).2.2 ≤ bs.length) (parser : P)
    (actions : List FeedAction)
    (hterm : Along (feedStep execute) InputTerminated (feedInit parser) actions) :
    ∃ s, run (feedStep execute) (feedInit parser) actions = .ok s ∧ FeedExact s := by
  refine run_ok (fun s a hs ha => ?_) (feedExact_init parser) hterm
  cases a with
  | read len answer => exact feedStep_read execute s answer hs
  | parse => exact feedStep_parse hexec s hs ha

/-! ## First reads -/

/-- A connection after its first read. -/
def afterFirstRead (parser : P) (bytes : Bytes) (h : bytes.length ≤ Buffer.initSize) :
    FeedState P M where
  conn := { inBuf := Buffer.init.store bytes (by simpa [Buffer.writeable, Buffer.init] using h)
            parser := some parser
            messageList := [] }
  received := bytes
  calls := []

theorem feedStep_firstRead (execute : Execute P M) (parser : P) (len : Nat)
    (hlen : len ≤ Buffer.initSize) (bytes : Bytes) (fits : bytes.length ≤ len) :
    feedStep execute (feedInit parser) (.read len (.got bytes fits)) =
      .ok (afterFirstRead parser bytes (fits.trans hlen)) := by
  have hroom : len ≤ Buffer.init.writeable := by simpa [Buffer.writeable, Buffer.init] using hlen
  simp [feedStep, feedInit, Buffer.read_of_le hroom fits, bind, Except.bind, afterFirstRead,
    ReadAnswer.bytes]

/-- The rest of the vector still holds the zeros it was made with. -/
theorem peek_afterFirstRead (parser : P) (bytes : Bytes) (h : bytes.length ≤ Buffer.initSize) :
    (afterFirstRead (M := M) parser bytes h).conn.inBuf.peek =
      bytes ++ List.replicate (Buffer.initSize - bytes.length) 0 := by
  simp [afterFirstRead, Buffer.store, Buffer.peek, Buffer.init, splice]

/-- A first read without NUL that does not fill the vector leaves it terminated. -/
theorem terminated_afterFirstRead (parser : P) {bytes : Bytes} (hlt : bytes.length < Buffer.initSize)
    (hne : bytes ≠ []) (htext : ∀ c ∈ bytes, c ≠ 0) :
    Terminated (afterFirstRead (M := M) parser bytes hlt.le).conn.inBuf := by
  have hpeek : text (afterFirstRead (M := M) parser bytes hlt.le).conn.inBuf.peek = bytes := by
    obtain ⟨k, hk⟩ := Nat.exists_eq_add_of_lt hlt
    rw [peek_afterFirstRead, hk, Nat.add_assoc, Nat.add_sub_cancel_left, List.replicate_succ]
    exact text_append_zero htext _
  rw [terminated_iff_text, hpeek, peek_afterFirstRead]
  have hreadable : (afterFirstRead (M := M) parser bytes hlt.le).conn.inBuf.readable =
      bytes.length := by
    simp [afterFirstRead, Buffer.store, Buffer.readable, Buffer.init]
  refine ⟨hne, hreadable.ge, ?_, hlt.trans (by decide)⟩
  simp only [List.length_append, List.length_replicate]
  omega

/-- A parser that consumes whatever it is given. -/
def consumeAll : Execute Unit Unit := fun p bs => (p, [], bs.length)

theorem parse_feeds_stream_get :
    ∃ s, run (feedStep consumeAll) (feedInit ())
        [.read 3 (.got [71, 69, 84] (by decide)), .parse] = .ok s ∧ FeedExact s := by
  refine parse_feeds_stream consumeAll (fun _ _ _ => Nat.le_refl _) () _ ⟨?_, fun t ht => ?_⟩
  · rintro ⟨⟩
  · rw [feedStep_firstRead _ _ _ (by decide)] at ht
    cases ht
    exact ⟨fun _ _ _ => terminated_afterFirstRead () (by decide) (by decide) (by simp),
      fun _ _ => trivial⟩

/-- A received NUL is the end of the file for the parser, with one byte readable. -/
theorem parse_nul_not_exact :
    ∃ s, run (feedStep consumeAll) (feedInit ()) [.read 1 (.got [0] (by decide)), .parse] = .ok s ∧
      ¬ FeedExact s := by
  have hread := feedStep_firstRead consumeAll () 1 (by decide) [0] (by decide)
  have hpeek := peek_afterFirstRead (M := Unit) () [0] (by decide)
  obtain ⟨c', request, parsed, hparse, -, -⟩ := parse_call consumeAll ()
    (afterFirstRead (M := Unit) () [0] (by decide)).conn rfl (by decide)
    (by rw [hpeek]; simp) (by rw [hpeek]; simp [parseArraySize])
  rw [hpeek, List.singleton_append, text_zero_cons] at hparse
  let s : FeedState Unit Unit :=
    { conn := c', received := [0], calls := [⟨⟨[], parsed⟩, [0]⟩] }
  refine ⟨s, (run_cons_ok hread).trans (run_cons_ok ?_), fun h => ?_⟩
  · have hregion : (afterFirstRead (M := Unit) () [0] (by decide)).conn.inBuf.content = [0] := by
      simp [afterFirstRead, Buffer.content_store]
    simp only [feedStep, hparse, bind, Except.bind, hregion]
    rfl
  · exact h.given_nonempty _ (List.mem_singleton.mpr rfl) (by simp) rfl

end Sails.Net
