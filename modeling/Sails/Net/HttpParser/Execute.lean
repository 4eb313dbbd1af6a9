import Sails.Net.HttpParser.Switch

/-!
# `http_parser_execute`

The loop over the data, and a client that feeds a connection's bytes to the parser.

- `iterate`, `loop`: one byte, all bytes
- `execute`: `http_parser_execute`
- `Session.offer`: a client that offers what has not been consumed again, as `HttpServer::Parse`
  does; `Session.feed` offers one segment after the other
-/

namespace Sails.HttpParser

open TransitionRun (Fault)
open CMemory
open Sails.Net (Callback)

/-! ## The loop -/

/-- `++parser->nread` while the header is parsed. -/
def Parser.count (q : Parser) : Parser :=
  if q.state.parsingHeader then { q with nread := (q.nread + 1) % 2 ^ 32 } else q

/-- The check of the header's size, behind the count. -/
def Parser.overflows (q : Parser) : Bool := q.state.parsingHeader && q.nread > httpMaxHeaderSize

/-- The loop's body, at the byte `ch`. -/
def iterate (s : Settings) (ch : UInt8) (x : Exec) : Outcome :=
  let x := { x with parser := x.parser.count }
  if x.parser.overflows then .returned (x.setErrno .headerOverflow) x.p
  else (switch x.parser ch x.rest.length).run s x

/-- The loop; every turn consumes a byte, so as many turns as there are bytes are enough. -/
def loop (s : Settings) : Nat → Exec → Outcome
  | 0, x => .next x
  | turns + 1, x =>
    match x.rest with
    | [] => .next x
    | ch :: _ => (iterate s ch x).andThen fun y => loop s turns (y.advance 1)

/-! ## `http_parser_execute` -/

/-- What `http_parser_execute` leaves: the parser, all callbacks made so far, the number of bytes
parsed. -/
structure Executed where
  parser : Parser
  made : List Callback
  parsed : Nat

/-- The marks set at the start of the data. -/
def startMarks (s : State) (k : DataKind) : Option Bytes :=
  if s.resumes = some k then some [] else none

/-- The marks, in the order of the source. -/
def DataKind.all : List DataKind := [.headerField, .headerValue, .url, .body, .status]

/-- The callbacks for the marks left over at the end of the data. -/
def leftover (q : Parser) : Plan :=
  .dataNoadvance .headerField q <| .dataNoadvance .headerValue q <| .dataNoadvance .url q <|
    .dataNoadvance .body q <| .dataNoadvance .status q <| .next q

/-- The end of `http_parser_execute`, with `return len`. -/
def finish (s : Settings) (len : Nat) (x : Exec) : Except Fault Executed :=
  if (DataKind.all.filter fun k => (x.marks k).isSome).length ≤ 1 then
    match (leftover x.parser).run s x with
    | .next y => .ok ⟨y.parser, y.made, len⟩
    | .returned y n => .ok ⟨y.parser, y.made, n⟩
    | .fault f => .error f
  else .error .assertion

/-- `http_parser_execute` without data, at the end of the stream. -/
def executeEof (s : Settings) (q : Parser) (made : List Callback) : Executed :=
  match q.state with
  | .bodyIdentityEof =>
    let c := Callback.messageComplete q.view
    ⟨if s made c ≠ 0 then { q with errno := .cbMessageComplete } else q, made ++ [c], 0⟩
  | .dead | .startReqOrRes | .startRes | .startReq => ⟨q, made, 0⟩
  | _ => ⟨{ q with errno := .invalidEofState }, made, 1⟩

/-- `http_parser_execute`, with the callbacks made before. -/
def execute (s : Settings) (q : Parser) (made : List Callback) (data : Bytes) :
    Except Fault Executed :=
  if q.errno ≠ .ok then .ok ⟨q, made, 0⟩
  else if data = [] then .ok (executeEof s q made)
  else
    match loop s data.length ⟨q, startMarks q.state, 0, data, made⟩ with
    | .next x => finish s data.length x
    | .returned x n => .ok ⟨x.parser, x.made, n⟩
    | .fault f => .error f

/-! ## A client -/

/-- A connection's parser, the callbacks made and the number of bytes consumed so far. -/
structure Session where
  parser : Parser
  made : List Callback
  consumed : Nat

/-- A new connection. -/
def Session.start (t : ParserType) : Session := ⟨.init t, [], 0⟩

/-- Offer the data, and what is left of it again, until there is nothing left or nothing is taken. -/
def Session.offer (s : Settings) : Nat → Session → Bytes → Except Fault Session
  | 0, c, _ => .ok c
  | tries + 1, c, data =>
    if data = [] then .ok c
    else do
      let r ← execute s c.parser c.made data
      let c := ⟨r.parser, r.made, c.consumed + r.parsed⟩
      if r.parsed = 0 then .ok c else Session.offer s tries c (data.drop r.parsed)

/-- Offer the segments one after the other. -/
def Session.feed (s : Settings) (c : Session) (segments : List Bytes) : Except Fault Session :=
  segments.foldlM (fun c data => c.offer s (data.length + 1) data) c

end Sails.HttpParser
