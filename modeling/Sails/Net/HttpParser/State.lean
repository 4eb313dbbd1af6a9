import Sails.Net.Http.Message
import Sails.Net.HttpParser.Chars

/-!
# `struct http_parser`

The enumerations of `http_parser.h` and `http_parser.cc`, the parser's record, and what can be read
off it.

- `HttpMethod`, `Errno`, `State`, `HeaderState`, `Flags`: the enumerations
- `Parser`: the record; `Parser.init` is `http_parser_init`
- `shouldKeepAlive`, `messageNeedsEof`, `bodyIsFinal`: the questions callbacks may ask
- `Parser.view`: the part of the record the callbacks of `http.cc` look at
-/

namespace Sails.HttpParser

open CMemory
open Sails.Net (Callback)

/-! ## Enumerations -/

/-- `enum http_method`, in the order of `HTTP_METHOD_MAP`. -/
inductive HttpMethod where
  | delete | get | head | post | put
  | connect | options | trace
  | copy | lock | mkcol | move | propfind | proppatch | search | unlock
  | report | mkactivity | checkout | merge
  | msearch | notify | subscribe | unsubscribe
  | patch | purge
  | mkcalendar
  deriving DecidableEq

/-- The number of a method. -/
def HttpMethod.num : HttpMethod → Nat
  | delete => 0 | get => 1 | head => 2 | post => 3 | put => 4
  | connect => 5 | options => 6 | trace => 7
  | copy => 8 | lock => 9 | mkcol => 10 | move => 11 | propfind => 12 | proppatch => 13
  | search => 14 | unlock => 15
  | report => 16 | mkactivity => 17 | checkout => 18 | merge => 19
  | msearch => 20 | notify => 21 | subscribe => 22 | unsubscribe => 23
  | patch => 24 | purge => 25
  | mkcalendar => 26

/-- `method_strings`. -/
def methodString : HttpMethod → Bytes
  | .delete => ascii "DELETE"
  | .get => ascii "GET"
  | .head => ascii "HEAD"
  | .post => ascii "POST"
  | .put => ascii "PUT"
  | .connect => ascii "CONNECT"
  | .options => ascii "OPTIONS"
  | .trace => ascii "TRACE"
  | .copy => ascii "COPY"
  | .lock => ascii "LOCK"
  | .mkcol => ascii "MKCOL"
  | .move => ascii "MOVE"
  | .propfind => ascii "PROPFIND"
  | .proppatch => ascii "PROPPATCH"
  | .search => ascii "SEARCH"
  | .unlock => ascii "UNLOCK"
  | .report => ascii "REPORT"
  | .mkactivity => ascii "MKACTIVITY"
  | .checkout => ascii "CHECKOUT"
  | .merge => ascii "MERGE"
  | .msearch => ascii "M-SEARCH"
  | .notify => ascii "NOTIFY"
  | .subscribe => ascii "SUBSCRIBE"
  | .unsubscribe => ascii "UNSUBSCRIBE"
  | .patch => ascii "PATCH"
  | .purge => ascii "PURGE"
  | .mkcalendar => ascii "MKCALENDAR"

/-- `enum http_parser_type`. -/
inductive ParserType where
  | request
  | response
  | both
  deriving DecidableEq

/-- `enum http_errno`, as far as the parser sets it. -/
inductive Errno where
  | ok
  | cbMessageBegin | cbUrl | cbHeaderField | cbHeaderValue | cbHeadersComplete | cbBody
  | cbMessageComplete | cbStatus
  | invalidEofState | headerOverflow | closedConnection | invalidVersion | invalidStatus
  | invalidMethod | invalidUrl | lfExpected | invalidHeaderToken | invalidContentLength
  | invalidChunkSize | invalidConstant | strict | paused
  deriving DecidableEq

/-- `enum state`. -/
inductive State where
  | dead
  | startReqOrRes | resOrRespH
  | startRes | resH | resHT | resHTT | resHTTP
  | resFirstHttpMajor | resHttpMajor | resFirstHttpMinor | resHttpMinor
  | resFirstStatusCode | resStatusCode | resStatusStart | resStatus | resLineAlmostDone
  | startReq | reqMethod | reqSpacesBeforeUrl
  | reqSchema | reqSchemaSlash | reqSchemaSlashSlash
  | reqServerStart | reqServer | reqServerWithAt
  | reqPath | reqQueryStringStart | reqQueryString | reqFragmentStart | reqFragment
  | reqHttpStart | reqHttpH | reqHttpHT | reqHttpHTT | reqHttpHTTP
  | reqFirstHttpMajor | reqHttpMajor | reqFirstHttpMinor | reqHttpMinor | reqLineAlmostDone
  | headerFieldStart | headerField
  | headerValueDiscardWs | headerValueDiscardWsAlmostDone | headerValueDiscardLws
  | headerValueStart | headerValue | headerValueLws | headerAlmostDone
  | chunkSizeStart | chunkSize | chunkParameters | chunkSizeAlmostDone
  | headersAlmostDone | headersDone
  | chunkData | chunkDataAlmostDone | chunkDataDone
  | bodyIdentity | bodyIdentityEof
  | messageDone
  deriving DecidableEq

/-- The macro `PARSING_HEADER`: the states up to `s_headers_done`. -/
def State.parsingHeader : State → Bool
  | chunkData | chunkDataAlmostDone | chunkDataDone | bodyIdentity | bodyIdentityEof
  | messageDone => false
  | _ => true

/-- `enum header_states`. -/
inductive HeaderState where
  | general | c | co | con
  | matchingConnection | matchingProxyConnection | matchingContentLength
  | matchingTransferEncoding | matchingUpgrade
  | connection | contentLength | transferEncoding | upgrade
  | matchingTransferEncodingChunked | matchingConnectionKeepAlive | matchingConnectionClose
  | transferEncodingChunked | connectionKeepAlive | connectionClose
  deriving DecidableEq

/-- `enum flags`, one field a bit. -/
structure Flags where
  chunked : Bool
  connectionKeepAlive : Bool
  connectionClose : Bool
  trailing : Bool
  upgrade : Bool
  skipbody : Bool
  deriving DecidableEq

/-- No bit set. -/
def Flags.zero : Flags := ⟨false, false, false, false, false, false⟩

/-! ## The record -/

/-- `ULLONG_MAX`. -/
def ullongMax : Nat := 2 ^ 64 - 1

/-- `HTTP_MAX_HEADER_SIZE`. -/
def httpMaxHeaderSize : Nat := 80 * 1024

/-- `struct http_parser`. -/
structure Parser where
  type : ParserType
  flags : Flags
  state : State
  headerState : HeaderState
  index : Nat
  nread : Nat
  contentLength : Nat
  httpMajor : Nat
  httpMinor : Nat
  statusCode : Nat
  method : HttpMethod
  errno : Errno
  upgrade : Bool
  deriving DecidableEq

/-- `http_parser_init`; the method number 0 is that of DELETE. -/
def Parser.init (t : ParserType) : Parser where
  type := t
  flags := .zero
  state :=
    match t with
    | .request => .startReq
    | .response => .startRes
    | .both => .startReqOrRes
  headerState := .general
  index := 0
  nread := 0
  contentLength := 0
  httpMajor := 0
  httpMinor := 0
  statusCode := 0
  method := .delete
  errno := .ok
  upgrade := false

/-! ## Questions -/

/-- `http_message_needs_eof`. -/
def messageNeedsEof (q : Parser) : Bool :=
  if q.type = .request then false
  else if q.statusCode / 100 = 1 ∨ q.statusCode = 204 ∨ q.statusCode = 304 ∨ q.flags.skipbody then
    false
  else if q.flags.chunked ∨ q.contentLength ≠ ullongMax then false
  else true

/-- `http_should_keep_alive`. -/
def shouldKeepAlive (q : Parser) : Bool :=
  if q.httpMajor > 0 ∧ q.httpMinor > 0 then
    if q.flags.connectionClose then false else !messageNeedsEof q
  else
    if !q.flags.connectionKeepAlive then false else !messageNeedsEof q

/-- `http_body_is_final`. -/
def bodyIsFinal (q : Parser) : Bool := q.state = .messageDone

/-- The macro `start_state`. -/
def startState (q : Parser) : State := if q.type = .request then .startReq else .startRes

/-- The macro `NEW_MESSAGE`. -/
def newMessage (q : Parser) : State := if shouldKeepAlive q then startState q else .dead

/-- What the callbacks of `http.cc` look at. -/
def Parser.view (q : Parser) : Net.HttpParser where
  method := q.method.num
  statusCode := q.statusCode
  httpMajor := q.httpMajor
  httpMinor := q.httpMinor
  shouldKeepAlive := if shouldKeepAlive q then 1 else 0
  bodyIsFinal := if bodyIsFinal q then 1 else 0

/-! ## Data callbacks -/

/-- The texts that are handed over in pieces; each has a mark of its own. -/
inductive DataKind where
  | headerField
  | headerValue
  | url
  | body
  | status
  deriving DecidableEq

/-- The data callback of a kind. -/
def DataKind.callback (k : DataKind) (q : Parser) (text : Bytes) : Callback :=
  match k with
  | headerField => .headerField text
  | headerValue => .headerValue text
  | url => .requestUrl text
  | body => .body q.view text
  | status => .responseStatus text

/-- `HPE_CB_##FOR` of a data callback. -/
def DataKind.errno : DataKind → Errno
  | headerField => .cbHeaderField
  | headerValue => .cbHeaderValue
  | url => .cbUrl
  | body => .cbBody
  | status => .cbStatus

/-- The mark that `http_parser_execute` sets at the start of its data. -/
def State.resumes : State → Option DataKind
  | headerField => some .headerField
  | headerValue => some .headerValue
  | reqPath | reqSchema | reqSchemaSlash | reqSchemaSlashSlash | reqServerStart | reqServer
  | reqServerWithAt | reqQueryStringStart | reqQueryString | reqFragmentStart
  | reqFragment => some .url
  | resStatus => some .status
  | _ => none

end Sails.HttpParser
