import Sails.Base.Strings
import Mathlib.Logic.Function.Basic
import Mathlib.Data.Fin.Basic

/-!
# `http_message` and the callbacks that fill it

The record the HTTP parser's callbacks write, with its fixed arrays, and the callbacks
themselves, translated from `http.h` and `http.cc`.

- `HttpMessage`, `ParserFlag`: the fields that some callback reads or writes
- `headerFieldCb` .. `messageCompleteCb`, `parserUrl`: the callbacks
- `callbackStep`: one callback of a parser that stops when a callback returns nonzero

A callback's piece is the bytes `buf[0..len)`. Here `http_parser_parse_url` is a parameter, one call
of it for each message; the vendored one is `HttpParser.urlParser`.
-/

namespace Sails.Net

open TransitionRun (Fault)
open CMemory
open Sails.Base

/-! ## The record -/

/-- `MAX_HEADERS`. -/
def maxHeaders : Nat := 13

/-- `MAX_PATH_SIZE`. -/
def maxPathSize : Nat := 1024

/-- `MAX_ELEMENT_SIZE`. -/
def maxElementSize : Nat := 2048

/-- `MAX_BODY_SIZE`. -/
def maxBodySize : Nat := 20480

/-- `enum header_element`. -/
inductive HeaderElement where
  | none
  | field
  | value
  deriving DecidableEq

/-- `headers[i]`. -/
structure Header where
  name : CharArray maxElementSize
  value : CharArray maxElementSize

/-- `struct http_message`. -/
structure HttpMessage where
  method : Nat
  statusCode : Nat
  responseStatus : CharArray maxElementSize
  requestPath : CharArray maxPathSize
  requestUrl : CharArray maxPathSize
  queryString : CharArray maxElementSize
  body : CharArray maxBodySize
  bodySize : Nat
  host : Option Bytes
  port : Nat
  numHeaders : Int
  lastHeaderElement : HeaderElement
  headers : Fin maxHeaders → Header
  shouldKeepAlive : Int
  httpMajor : Nat
  httpMinor : Nat
  messageBeginCbCalled : Bool
  headersCompleteCbCalled : Bool
  messageCompleteCbCalled : Bool
  messageCompleteOnEof : Bool
  bodyIsFinal : Int

/-- `http_message_init`. -/
def HttpMessage.init : HttpMessage where
  method := 0
  statusCode := 0
  responseStatus := .zero _
  requestPath := .zero _
  requestUrl := .zero _
  queryString := .zero _
  body := .zero _
  bodySize := 0
  host := none
  port := 0
  numHeaders := 0
  lastHeaderElement := .none
  headers := fun _ => ⟨.zero _, .zero _⟩
  shouldKeepAlive := 1
  httpMajor := 1
  httpMinor := 1
  messageBeginCbCalled := false
  headersCompleteCbCalled := false
  messageCompleteCbCalled := false
  messageCompleteOnEof := false
  bodyIsFinal := 0

/-- `ParserFlag`: the message under construction and the ones completed. -/
structure ParserFlag where
  message : HttpMessage
  flag : Int
  messageList : List HttpMessage

/-- What the callbacks read of the parser `p`; the last two fields are the results of
`http_should_keep_alive(p)` and `http_body_is_final(p)`. -/
structure HttpParser where
  method : Nat
  statusCode : Nat
  httpMajor : Nat
  httpMinor : Nat
  shouldKeepAlive : Int
  bodyIsFinal : Int

/-! ## Headers -/

/-- The element `headers[i]`. -/
def headerAt (i : Int) : Except Fault (Fin maxHeaders) :=
  if h : 0 ≤ i ∧ i < maxHeaders then .ok ⟨i.toNat, by omega⟩ else .error .outOfBounds

def headerFieldCb (m : HttpMessage) (piece : Bytes) : Except Fault HttpMessage := do
  let numHeaders := if m.lastHeaderElement ≠ .field then m.numHeaders + 1 else m.numHeaders
  let i ← headerAt (numHeaders - 1)
  let (name, _) ← strlncat (m.headers i).name piece
  .ok { m with
    numHeaders := numHeaders
    headers := Function.update m.headers i { m.headers i with name := name }
    lastHeaderElement := .field }

def headerValueCb (m : HttpMessage) (piece : Bytes) : Except Fault HttpMessage := do
  let i ← headerAt (m.numHeaders - 1)
  let (value, _) ← strlncat (m.headers i).value piece
  .ok { m with
    headers := Function.update m.headers i { m.headers i with value := value }
    lastHeaderElement := .value }

/-! ## The URL -/

/-- What `http_parser_parse_url` reports: the port, and offset and length of each part whose
bit is set in `field_set`. -/
structure HttpParserUrl where
  port : Option Nat
  host : Option (Nat × Nat)
  path : Option (Nat × Nat)
  query : Option (Nat × Nat)

/-- One call of `http_parser_parse_url`; `none` is a nonzero result. It reads the caller's record,
which is not initialised, so two calls may answer differently, and may fail. -/
abbrev ParseUrl := Bytes → Except Fault (Option HttpParserUrl)

/-- The bytes of one part of a URL. -/
def urlPart (url : Bytes) (part : Nat × Nat) : Bytes := (url.drop part.1).take part.2

/-- The loop of `parser_url` over the headers: the first one named `Host` among `remaining`
headers from `i` on. -/
def findHost (headers : Fin maxHeaders → Header) (i : Nat) :
    Nat → Except Fault (Option (Fin maxHeaders))
  | 0 => .ok none
  | remaining + 1 =>
    if h : i < maxHeaders then
      if (headers ⟨i, h⟩).name.str = ascii "Host" then .ok (some ⟨i, h⟩)
      else findHost headers (i + 1) remaining
    else .error .outOfBounds

/-- Append the value of the `Host` header, if there is one. -/
def appendHost (m : HttpMessage) (url : CharArray maxPathSize) :
    Except Fault (CharArray maxPathSize) := do
  match ← findHost m.headers 0 m.numHeaders.toNat with
  | none => .ok url
  | some i => do
    let len ← strlen (m.headers i).value.bytes
    url.strncat (m.headers i).value.bytes len

/-- The local `url` of `parser_url`: the scheme, the `Host` header, the request's url. -/
def buildUrl (m : HttpMessage) : Except Fault (CharArray maxPathSize) := do
  let scheme := ascii "http://"
  let url ← (CharArray.zero maxPathSize).strncat scheme scheme.length
  let url ← appendHost m url
  let len ← strlen m.requestUrl.bytes
  url.strncat m.requestUrl.bytes len

/-- Clear `request_path` and store the path of the URL. -/
def storePath (requestPath : CharArray maxPathSize) (url : Bytes) (path : Option (Nat × Nat)) :
    Except Fault (CharArray maxPathSize) := do
  let len ← strlen requestPath.bytes
  let cleared ← requestPath.store 0 (List.replicate len 0)
  match path with
  | none => .ok cleared
  | some part => cleared.store 0 (urlPart url part ++ [0])

/-- Store the query of the URL; the source terminates `request_path`, not `query_string`. -/
def storeQuery (m : HttpMessage) (url : Bytes) (query : Option (Nat × Nat)) :
    Except Fault HttpMessage :=
  match query with
  | none => .ok m
  | some part => do
    let queryString ← m.queryString.store 0 (urlPart url part)
    let requestPath ← m.requestPath.store part.2 [0]
    .ok { m with requestPath := requestPath, queryString := queryString }

/-- `parser_url`. -/
def parserUrl (parseUrl : ParseUrl) (m : HttpMessage) : Except Fault HttpMessage := do
  let url ← buildUrl m
  match ← parseUrl url.str with
  | none => .ok m
  | some u => do
    let requestPath ← storePath m.requestPath url.str u.path
    -- `host` is NULL in a message under construction, so there is none to free
    storeQuery
      { m with
        port := u.port.getD 80
        host := u.host.map (urlPart url.str)
        requestPath := requestPath } url.str u.query

/-! ## The callbacks -/

/-- A callback the parser makes, with what it is given. -/
inductive Callback where
  | messageBegin
  | requestUrl (piece : Bytes)
  | responseStatus (piece : Bytes)
  | headerField (piece : Bytes)
  | headerValue (piece : Bytes)
  | headersComplete (p : HttpParser)
  | body (p : HttpParser) (piece : Bytes)
  | messageComplete (p : HttpParser)

def requestUrlCb (m : HttpMessage) (piece : Bytes) : Except Fault HttpMessage := do
  let (requestUrl, _) ← strlncat m.requestUrl piece
  .ok { m with requestUrl := requestUrl }

def responseStatusCb (m : HttpMessage) (piece : Bytes) : Except Fault HttpMessage := do
  let (responseStatus, _) ← strlncat m.responseStatus piece
  .ok { m with responseStatus := responseStatus }

def checkBodyIsFinal (f : ParserFlag) (p : HttpParser) : ParserFlag :=
  if f.message.bodyIsFinal ≠ 0 then { f with flag := -1 }
  else { f with message := { f.message with bodyIsFinal := p.bodyIsFinal } }

def bodyCb (f : ParserFlag) (p : HttpParser) (piece : Bytes) : Except Fault ParserFlag := do
  let (body, _) ← strlncat f.message.body piece
  .ok (checkBodyIsFinal
    { f with
      message := { f.message with body := body, bodySize := f.message.bodySize + piece.length } } p)

def headersCompleteCb (m : HttpMessage) (p : HttpParser) : HttpMessage :=
  { m with
    method := p.method
    statusCode := p.statusCode
    httpMajor := p.httpMajor
    httpMinor := p.httpMinor
    headersCompleteCbCalled := true
    shouldKeepAlive := p.shouldKeepAlive }

/-- The two consistency checks of `message_complete_cb`. -/
def MessageConsistent (m : HttpMessage) (p : HttpParser) : Prop :=
  m.shouldKeepAlive = p.shouldKeepAlive ∧
    ¬ (m.bodySize ≠ 0 ∧ p.bodyIsFinal ≠ 0 ∧ m.bodyIsFinal = 0)

instance (m : HttpMessage) (p : HttpParser) : Decidable (MessageConsistent m p) :=
  inferInstanceAs (Decidable (_ ∧ _))

/-- `message_complete_cb`, with its result. -/
def messageCompleteCb (parseUrl : ParseUrl) (f : ParserFlag) (p : HttpParser) :
    Except Fault (ParserFlag × Int) :=
  if MessageConsistent f.message p then do
    let m ← parserUrl parseUrl
      { f.message with messageCompleteCbCalled := true, messageCompleteOnEof := true }
    .ok ({ f with message := .init, messageList := f.messageList ++ [m] }, 0)
  else .ok ({ f with flag := -1 }, -1)

/-- Run one callback: the new `ParserFlag` and the callback's result. -/
def callback (parseUrl : ParseUrl) (f : ParserFlag) :
    Callback → Except Fault (ParserFlag × Int)
  | .messageBegin =>
    .ok ({ f with message := { f.message with messageBeginCbCalled := true } }, 0)
  | .requestUrl piece => do
    let m ← requestUrlCb f.message piece
    .ok ({ f with message := m }, 0)
  | .responseStatus piece => do
    let m ← responseStatusCb f.message piece
    .ok ({ f with message := m }, 0)
  | .headerField piece => do
    let m ← headerFieldCb f.message piece
    .ok ({ f with message := m }, 0)
  | .headerValue piece => do
    let m ← headerValueCb f.message piece
    .ok ({ f with message := m }, 0)
  | .headersComplete p => .ok ({ f with message := headersCompleteCb f.message p }, 0)
  | .body p piece => do
    let f' ← bodyCb f p piece
    .ok (f', 0)
  | .messageComplete p => messageCompleteCb parseUrl f p

/-- A parser with its `ParserFlag`; it makes no callback after one that failed. -/
structure ParserRun where
  parserFlag : ParserFlag
  stopped : Bool

/-- The state of `CreateConnectorCB`. -/
def ParserRun.init : ParserRun where
  parserFlag := { message := .init, flag := 0, messageList := [] }
  stopped := false

/-- One more callback; `parseUrls k` is the call of `http_parser_parse_url` for message `k`. -/
def callbackStep (parseUrls : Nat → ParseUrl) (s : ParserRun) (c : Callback) :
    Except Fault ParserRun :=
  if s.stopped then .ok s
  else do
    let (f, result) ← callback (parseUrls s.parserFlag.messageList.length) s.parserFlag c
    .ok { parserFlag := f, stopped := result ≠ 0 }

end Sails.Net
