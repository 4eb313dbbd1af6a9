import Sails.Net.HttpParser.State
import Mathlib.Logic.Function.Basic

/-!
# The macros of `http_parser_execute`

The body of the parser's loop is a switch whose cases are put together from a few macros: set a
mark, hand over the text behind a mark, notify, fail, go on. A case is a `Plan` here, a value made
of these macros, and `Plan.run` is what they do to the locals of `http_parser_execute`.

- `Exec`: the locals of `http_parser_execute` and the callbacks made so far
- `Plan`: one constructor a macro
- `Plan.run`: the macros at work
-/

namespace Sails.HttpParser

open TransitionRun (Fault)
open CMemory
open Sails.Net (Callback)

/-- `http_parser_settings`: what a callback returns, given the callbacks made before it. None of the
callbacks is NULL, and none of them pauses the parser. -/
abbrev Settings := List Callback → Callback → Int

/-- The locals of `http_parser_execute`. A mark is kept with the text between it and `p`. -/
structure Exec where
  parser : Parser
  marks : DataKind → Option Bytes
  /-- `p - data` -/
  p : Nat
  /-- the data from `p` on -/
  rest : Bytes
  made : List Callback

/-- `p += n`. -/
def Exec.advance (n : Nat) (x : Exec) : Exec :=
  { x with
    p := x.p + n
    rest := x.rest.drop n
    marks := fun k => (x.marks k).map (· ++ x.rest.take n) }

/-- The macro `MARK`. -/
def Exec.mark (k : DataKind) (x : Exec) : Exec :=
  { x with marks := Function.update x.marks k (some ((x.marks k).getD [])) }

/-- `FOR##_mark = NULL`. -/
def Exec.unmark (k : DataKind) (x : Exec) : Exec :=
  { x with marks := Function.update x.marks k none }

/-- A callback has been made, with the parser as it is then. -/
def Exec.call (q : Parser) (c : Callback) (x : Exec) : Exec :=
  { x with parser := q, made := x.made ++ [c] }

/-- `SET_ERRNO`. -/
def Exec.setErrno (e : Errno) (x : Exec) : Exec :=
  { x with parser := { x.parser with errno := e } }

/-- How a piece of `http_parser_execute` ends. -/
inductive Outcome where
  /-- at the end of the switch, on to the next byte -/
  | next (x : Exec)
  /-- with a `return` -/
  | returned (x : Exec) (parsed : Nat)
  | fault (f : Fault)

/-- Go on behind the switch. -/
def Outcome.andThen (rest : Exec → Outcome) : Outcome → Outcome
  | next x => rest x
  | returned x parsed => .returned x parsed
  | fault f => .fault f

@[simp] theorem andThen_next (rest : Exec → Outcome) (x : Exec) :
    (Outcome.next x).andThen rest = rest x := rfl

@[simp] theorem andThen_returned (rest : Exec → Outcome) (x : Exec) (n : Nat) :
    (Outcome.returned x n).andThen rest = .returned x n := rfl

@[simp] theorem andThen_fault (rest : Exec → Outcome) (f : Fault) :
    (Outcome.fault f).andThen rest = .fault f := rfl

/-- A case of the switch. Where a callback is made, or the case ends, `q` is the parser. -/
inductive Plan where
  /-- `break` -/
  | next (q : Parser)
  /-- `SET_ERRNO(e); goto error` -/
  | error (e : Errno) (q : Parser)
  /-- `MARK(k)` -/
  | mark (k : DataKind) (rest : Plan)
  /-- `p += n` -/
  | skip (n : Nat) (rest : Plan)
  /-- `CALLBACK_DATA(k)` -/
  | data (k : DataKind) (q : Parser) (rest : Plan)
  /-- `CALLBACK_DATA_NOADVANCE(k)` -/
  | dataNoadvance (k : DataKind) (q : Parser) (rest : Plan)
  /-- `CALLBACK_DATA_(k, p - k_mark + 1, p - data)` -/
  | dataThrough (k : DataKind) (q : Parser) (rest : Plan)
  /-- `CALLBACK_NOTIFY(message_begin)` -/
  | messageBegin (q : Parser) (rest : Plan)
  /-- `CALLBACK_NOTIFY(message_complete)` -/
  | messageComplete (q : Parser) (rest : Plan)
  /-- the switch on the result of `on_headers_complete`; `rest` is told whether it was 1 -/
  | headersComplete (q : Parser) (rest : Bool → Plan)
  /-- `return (p - data) + 1` -/
  | exit (q : Parser)
  /-- an assertion that fails, an access out of bounds -/
  | fault (f : Fault)

/-- `CALLBACK_NOTIFY_`: the callback `c`, with the error `e` and the value `er` to return if it
fails. -/
def notify (s : Settings) (c : Callback) (e : Errno) (er : Nat) (q : Parser)
    (rest : Exec → Outcome) (x : Exec) : Outcome :=
  if q.errno ≠ .ok then .fault .assertion
  else if s x.made c ≠ 0 then .returned ((x.call q c).setErrno e) er
  else rest (x.call q c)

/-- `CALLBACK_DATA_`: hand over the text behind the mark, with `more` behind it, if the mark is
set. -/
def handOver (s : Settings) (k : DataKind) (more : Bytes) (er : Nat) (q : Parser)
    (rest : Exec → Outcome) (x : Exec) : Outcome :=
  if q.errno ≠ .ok then .fault .assertion
  else
    match x.marks k with
    | none => rest x
    | some text =>
      notify s (k.callback q (text ++ more)) k.errno er q (fun y => rest (y.unmark k)) x

/-- The switch on the result of `on_headers_complete`. -/
def askHeadersComplete (s : Settings) (q : Parser) (rest : Bool → Exec → Outcome) (x : Exec) :
    Outcome :=
  let result := s x.made (.headersComplete q.view)
  let y := x.call q (.headersComplete q.view)
  if result = 0 then rest false y
  else if result = 1 then rest true y
  else .returned (y.setErrno .cbHeadersComplete) x.p

/-- The macros at work. -/
def Plan.run (s : Settings) : Plan → Exec → Outcome
  | .next q, x => .next { x with parser := q }
  | .error e q, x => .returned { x with parser := { q with errno := e } } x.p
  | .mark k rest, x => rest.run s (x.mark k)
  | .skip n rest, x => rest.run s (x.advance n)
  | .data k q rest, x => handOver s k [] (x.p + 1) q (rest.run s) x
  | .dataNoadvance k q rest, x => handOver s k [] x.p q (rest.run s) x
  | .dataThrough k q rest, x => handOver s k (x.rest.take 1) x.p q (rest.run s) x
  | .messageBegin q rest, x => notify s .messageBegin .cbMessageBegin (x.p + 1) q (rest.run s) x
  | .messageComplete q rest, x =>
    notify s (.messageComplete q.view) .cbMessageComplete (x.p + 1) q (rest.run s) x
  | .headersComplete q rest, x => askHeadersComplete s q (fun b => (rest b).run s) x
  | .exit q, x => .returned { x with parser := q } (x.p + 1)
  | .fault f, _ => .fault f

end Sails.HttpParser
