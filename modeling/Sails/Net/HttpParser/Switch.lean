import Sails.Net.HttpParser.Plan
import Sails.Net.HttpParser.Url

/-!
# The switch of `http_parser_execute`

One definition a case, or a few cases of the same text. `goto reexecute_byte` is a call of the case
of the new state, so a case comes after those it goes to.

- `startReqCase` .. `reqLineAlmostDoneCase`: the first line
- `headerFieldStartCase` .. `headerValueCase`: the headers
- `headersDoneCase`, `bodyIdentityCase`, `chunkSizeCase` ..: the body
- `switch`: the switch
-/

namespace Sails.HttpParser

open CMemory

/-! ## Parts of cases -/

/-- `STRICT_CHECK(cond)` in front of the rest of a case. -/
def strictCheck (cond : Bool) (q : Parser) (rest : Plan) : Plan :=
  if cond then .error .strict q else rest

/-- `assert(cond)` in front of the rest of a case. -/
def assert (cond : Bool) (rest : Plan) : Plan :=
  if cond then rest else .fault .assertion

/-- A case that expects one character and goes on in the state `s`. -/
def expectCase (c : UInt8) (s : State) (q : Parser) (ch : UInt8) : Plan :=
  strictCheck (ch ≠ c) q (.next { q with state := s })

/-- A further digit of a number that must not exceed 999; `store` writes the number. -/
def furtherDigit (value : Nat) (store : Nat → Parser) (e : Errno) (ch : UInt8) : Plan :=
  if value * 10 + digit ch > 999 then .error e (store (value * 10 + digit ch))
  else .next (store (value * 10 + digit ch))

/-- The end of a message: the new state is set before the callback is made. -/
def completeMessage (q : Parser) (rest : Parser → Plan) : Plan :=
  .messageComplete { q with state := newMessage q } (rest { q with state := newMessage q })

/-! ## The first line of a response -/

def resOrRespHCase (q : Parser) (ch : UInt8) : Plan :=
  if ch = code 'T' then .next { q with type := .response, state := .resHT }
  else if ch ≠ code 'E' then .error .invalidConstant q
  else .next { q with type := .request, method := .head, index := 2, state := .reqMethod }

/-- The inner `break` leaves the inner switch only, so a line end is notified as well. -/
def startResCase (q : Parser) (ch : UInt8) : Plan :=
  let q := { q with flags := .zero, contentLength := ullongMax }
  if ch = code 'H' then
    .messageBegin { q with state := .resH } (.next { q with state := .resH })
  else if ch = cr ∨ ch = lf then .messageBegin q (.next q)
  else .error .invalidConstant q

def resFirstHttpMajorCase (q : Parser) (ch : UInt8) : Plan :=
  if !isNum ch then .error .invalidVersion q
  else .next { q with httpMajor := digit ch, state := .resHttpMajor }

/-- `s_res_http_major` and `s_req_http_major`, with the state behind the dot. -/
def httpMajorCase (behindDot : State) (q : Parser) (ch : UInt8) : Plan :=
  if ch = code '.' then .next { q with state := behindDot }
  else if !isNum ch then .error .invalidVersion q
  else furtherDigit q.httpMajor (fun v => { q with httpMajor := v }) .invalidVersion ch

/-- `s_res_first_http_minor` and `s_req_first_http_minor`, with the state behind the digit. -/
def firstHttpMinorCase (behind : State) (q : Parser) (ch : UInt8) : Plan :=
  if !isNum ch then .error .invalidVersion q
  else .next { q with httpMinor := digit ch, state := behind }

/-- A further digit of the minor version, the end of two cases. -/
def httpMinorDigit (q : Parser) (ch : UInt8) : Plan :=
  if !isNum ch then .error .invalidVersion q
  else furtherDigit q.httpMinor (fun v => { q with httpMinor := v }) .invalidVersion ch

def resHttpMinorCase (q : Parser) (ch : UInt8) : Plan :=
  if ch = code ' ' then .next { q with state := .resFirstStatusCode } else httpMinorDigit q ch

def resFirstStatusCodeCase (q : Parser) (ch : UInt8) : Plan :=
  if !isNum ch then if ch = code ' ' then .next q else .error .invalidStatus q
  else .next { q with statusCode := digit ch, state := .resStatusCode }

def resStatusCodeCase (q : Parser) (ch : UInt8) : Plan :=
  if !isNum ch then
    if ch = code ' ' then .next { q with state := .resStatusStart }
    else if ch = cr then .next { q with state := .resLineAlmostDone }
    else if ch = lf then .next { q with state := .headerFieldStart }
    else .error .invalidStatus q
  else furtherDigit q.statusCode (fun v => { q with statusCode := v }) .invalidStatus ch

def resStatusStartCase (q : Parser) (ch : UInt8) : Plan :=
  if ch = cr then .next { q with state := .resLineAlmostDone }
  else if ch = lf then .next { q with state := .headerFieldStart }
  else .mark .status (.next { q with state := .resStatus, index := 0 })

def resStatusCase (q : Parser) (ch : UInt8) : Plan :=
  if ch = cr then
    .data .status { q with state := .resLineAlmostDone } (.next { q with state := .resLineAlmostDone })
  else if ch = lf then
    .data .status { q with state := .headerFieldStart } (.next { q with state := .headerFieldStart })
  else .next q

/-! ## The first line of a request -/

/-- The method a first letter stands for, or the first of several. -/
def firstMethod (ch : UInt8) : Option HttpMethod :=
  if ch = code 'C' then some .connect
  else if ch = code 'D' then some .delete
  else if ch = code 'G' then some .get
  else if ch = code 'H' then some .head
  else if ch = code 'L' then some .lock
  else if ch = code 'M' then some .mkcol
  else if ch = code 'N' then some .notify
  else if ch = code 'O' then some .options
  else if ch = code 'P' then some .post
  else if ch = code 'R' then some .report
  else if ch = code 'S' then some .subscribe
  else if ch = code 'T' then some .trace
  else if ch = code 'U' then some .unlock
  else none

def startReqCase (q : Parser) (ch : UInt8) : Plan :=
  if ch = cr ∨ ch = lf then .next q
  else
    let q := { q with flags := .zero, contentLength := ullongMax }
    if !isAlpha ch then .error .invalidMethod q
    else
      match firstMethod ch with
      | none => .error .invalidMethod { q with method := .delete, index := 1 }
      | some m =>
        let q := { q with method := m, index := 1, state := .reqMethod }
        .messageBegin q (.next q)

def startReqOrResCase (q : Parser) (ch : UInt8) : Plan :=
  if ch = cr ∨ ch = lf then .next q
  else
    let q := { q with flags := .zero, contentLength := ullongMax }
    if ch = code 'H' then
      .messageBegin { q with state := .resOrRespH } (.next { q with state := .resOrRespH })
    else startReqCase { q with type := .request, state := .startReq } ch

/-- The method to go on with where the character `ch` at `index` is not the one of `m`. -/
def otherMethod (m : HttpMethod) (index : Nat) (ch : UInt8) : Option HttpMethod :=
  if m = .connect then
    if index = 1 ∧ ch = code 'H' then some .checkout
    else if index = 2 ∧ ch = code 'P' then some .copy
    else none
  else if m = .mkcol then
    if index = 1 ∧ ch = code 'O' then some .move
    else if index = 1 ∧ ch = code 'E' then some .merge
    else if index = 1 ∧ ch = code '-' then some .msearch
    else if index = 2 ∧ ch = code 'A' then some .mkactivity
    else if index = 3 ∧ ch = code 'A' then some .mkcalendar
    else none
  else if m = .subscribe then
    if index = 1 ∧ ch = code 'E' then some .search else none
  else if index = 1 ∧ m = .post then
    if ch = code 'R' then some .propfind
    else if ch = code 'U' then some .put
    else if ch = code 'A' then some .patch
    else none
  else if index = 2 then
    if m = .put then if ch = code 'R' then some .purge else none
    else if m = .unlock then if ch = code 'S' then some .unsubscribe else none
    else none
  else if index = 4 ∧ m = .propfind ∧ ch = code 'P' then some .proppatch
  else none

def reqMethodCase (q : Parser) (ch : UInt8) : Plan :=
  if ch = 0 then .error .invalidMethod q
  else
    let step (q : Parser) : Plan := .next { q with index := (q.index + 1) % 256 }
    -- the string with its NUL
    match (methodString q.method ++ [0])[q.index]? with
    | none => .fault .outOfBounds
    | some c =>
      if ch = code ' ' ∧ c = 0 then step { q with state := .reqSpacesBeforeUrl }
      else if ch = c then step q
      else
        match otherMethod q.method q.index ch with
        | none => .error .invalidMethod q
        | some m => step { q with method := m }

/-- `parser->state = parse_url_char(..)` with its error. -/
def urlCharCase (q : Parser) (ch : UInt8) : Plan :=
  let q := { q with state := parseUrlChar q.state ch }
  if q.state = .dead then .error .invalidUrl q else .next q

def reqSpacesBeforeUrlCase (q : Parser) (ch : UInt8) : Plan :=
  if ch = code ' ' then .next q
  else
    .mark .url
      (urlCharCase (if q.method = .connect then { q with state := .reqServerStart } else q) ch)

/-- `s_req_schema` .. `s_req_server_start`. -/
def reqSchemaCase (q : Parser) (ch : UInt8) : Plan :=
  if ch = code ' ' ∨ ch = cr ∨ ch = lf then .error .invalidUrl q else urlCharCase q ch

/-- `s_req_server` .. `s_req_fragment`. -/
def reqServerCase (q : Parser) (ch : UInt8) : Plan :=
  if ch = code ' ' then
    .data .url { q with state := .reqHttpStart } (.next { q with state := .reqHttpStart })
  else if ch = cr ∨ ch = lf then
    let q := { q with
      httpMajor := 0
      httpMinor := 9
      state := if ch = cr then .reqLineAlmostDone else .headerFieldStart }
    .data .url q (.next q)
  else urlCharCase q ch

def reqHttpStartCase (q : Parser) (ch : UInt8) : Plan :=
  if ch = code 'H' then .next { q with state := .reqHttpH }
  else if ch = code ' ' then .next q
  else .error .invalidConstant q

def reqFirstHttpMajorCase (q : Parser) (ch : UInt8) : Plan :=
  if ch < code '1' ∨ ch > code '9' then .error .invalidVersion q
  else .next { q with httpMajor := digit ch, state := .reqHttpMajor }

def reqHttpMinorCase (q : Parser) (ch : UInt8) : Plan :=
  if ch = cr then .next { q with state := .reqLineAlmostDone }
  else if ch = lf then .next { q with state := .headerFieldStart }
  else httpMinorDigit q ch

def reqLineAlmostDoneCase (q : Parser) (ch : UInt8) : Plan :=
  if ch ≠ lf then .error .lfExpected q else .next { q with state := .headerFieldStart }

/-! ## The end of the headers, the body -/

def messageDoneCase (q : Parser) : Plan := completeMessage q .next

/-- The body that is announced by the headers. -/
def headersDoneCase (q : Parser) (ch : UInt8) : Plan :=
  strictCheck (ch ≠ lf) q <|
    let q := { q with nread := 0 }
    if q.upgrade then completeMessage q .exit
    else if q.flags.skipbody then completeMessage q .next
    else if q.flags.chunked then .next { q with state := .chunkSizeStart }
    else if q.contentLength = 0 then completeMessage q .next
    else if q.contentLength ≠ ullongMax then .next { q with state := .bodyIdentity }
    else if q.type = .request ∨ !messageNeedsEof q then completeMessage q .next
    else .next { q with state := .bodyIdentityEof }

def headersAlmostDoneCase (q : Parser) (ch : UInt8) : Plan :=
  strictCheck (ch ≠ lf) q <|
    if q.flags.trailing then completeMessage q .next
    else
      let q := { q with
        state := .headersDone
        upgrade := q.flags.upgrade || q.method = .connect }
      .headersComplete q fun skipbody =>
        headersDoneCase { q with flags.skipbody := q.flags.skipbody || skipbody } ch

/-- `avail` is `(data + len) - p`. -/
def bodyIdentityCase (q : Parser) (avail : Nat) : Plan :=
  let toRead := min q.contentLength avail
  assert (q.contentLength ≠ 0 ∧ q.contentLength ≠ ullongMax) <|
    .mark .body <|
      let q := { q with contentLength := q.contentLength - toRead }
      .skip (toRead - 1) <|
        if q.contentLength = 0 then
          let q := { q with state := .messageDone }
          .dataThrough .body q (messageDoneCase q)
        else .next q

def bodyIdentityEofCase (q : Parser) (avail : Nat) : Plan :=
  .mark .body (.skip (avail - 1) (.next q))

def chunkSizeStartCase (q : Parser) (ch : UInt8) : Plan :=
  assert (q.nread = 1) <| assert q.flags.chunked <|
    match unhex ch with
    | none => .error .invalidChunkSize q
    | some v => .next { q with contentLength := v, state := .chunkSize }

def chunkSizeCase (q : Parser) (ch : UInt8) : Plan :=
  assert q.flags.chunked <|
    if ch = cr then .next { q with state := .chunkSizeAlmostDone }
    else
      match unhex ch with
      | none =>
        if ch = code ';' ∨ ch = code ' ' then .next { q with state := .chunkParameters }
        else .error .invalidChunkSize q
      | some v =>
        if (ullongMax - 16) / 16 < q.contentLength then .error .invalidContentLength q
        else .next { q with contentLength := q.contentLength * 16 + v }

def chunkParametersCase (q : Parser) (ch : UInt8) : Plan :=
  assert q.flags.chunked <|
    if ch = cr then .next { q with state := .chunkSizeAlmostDone } else .next q

def chunkSizeAlmostDoneCase (q : Parser) (ch : UInt8) : Plan :=
  assert q.flags.chunked <| strictCheck (ch ≠ lf) q <|
    let q := { q with nread := 0 }
    if q.contentLength = 0 then
      .next { q with flags.trailing := true, state := .headerFieldStart }
    else .next { q with state := .chunkData }

def chunkDataCase (q : Parser) (avail : Nat) : Plan :=
  let toRead := min q.contentLength avail
  assert q.flags.chunked <| assert (q.contentLength ≠ 0 ∧ q.contentLength ≠ ullongMax) <|
    .mark .body <|
      let q := { q with contentLength := q.contentLength - toRead }
      .skip (toRead - 1) <|
        if q.contentLength = 0 then .next { q with state := .chunkDataAlmostDone } else .next q

def chunkDataAlmostDoneCase (q : Parser) (ch : UInt8) : Plan :=
  assert q.flags.chunked <| assert (q.contentLength = 0) <| strictCheck (ch ≠ cr) q <|
    .data .body { q with state := .chunkDataDone } (.next { q with state := .chunkDataDone })

def chunkDataDoneCase (q : Parser) (ch : UInt8) : Plan :=
  assert q.flags.chunked <| strictCheck (ch ≠ lf) q <|
    .next { q with nread := 0, state := .chunkSizeStart }

/-! ## Headers -/

def headerFieldStartCase (q : Parser) (ch : UInt8) : Plan :=
  if ch = cr then .next { q with state := .headersAlmostDone }
  else if ch = lf then headersAlmostDoneCase { q with state := .headersAlmostDone } ch
  else
    let c := token ch
    if c = 0 then .error .invalidHeaderToken q
    else
      .mark .headerField <| .next { q with
        index := 0
        state := .headerField
        headerState :=
          if c = code 'c' then .c
          else if c = code 'p' then .matchingProxyConnection
          else if c = code 't' then .matchingTransferEncoding
          else if c = code 'u' then .matchingUpgrade
          else .general }

/-- One more character of the constant `lit`, of which `index` have been seen; `seen` is the state
behind the last one. -/
def matchNext (lit : Bytes) (seen : HeaderState) (q : Parser) (c : UInt8) : Parser :=
  let i := (q.index + 1) % 256
  let q := { q with index := i }
  -- the constant with its NUL
  if i > lit.length ∨ c ≠ (lit ++ [0]).getD i 0 then { q with headerState := .general }
  else if i = lit.length - 1 then { q with headerState := seen }
  else q

/-- The switch on `header_state` in `s_header_field`; `none` is its default. -/
def fieldHeaderState (q : Parser) (ch c : UInt8) : Option Parser :=
  match q.headerState with
  | .general => some q
  | .c =>
    some { q with
      index := (q.index + 1) % 256
      headerState := if c = code 'o' then .co else .general }
  | .co =>
    some { q with
      index := (q.index + 1) % 256
      headerState := if c = code 'n' then .con else .general }
  | .con =>
    some { q with
      index := (q.index + 1) % 256
      headerState :=
        if c = code 'n' then .matchingConnection
        else if c = code 't' then .matchingContentLength
        else .general }
  | .matchingConnection => some (matchNext (ascii "connection") .connection q c)
  | .matchingProxyConnection => some (matchNext (ascii "proxy-connection") .connection q c)
  | .matchingContentLength => some (matchNext (ascii "content-length") .contentLength q c)
  | .matchingTransferEncoding => some (matchNext (ascii "transfer-encoding") .transferEncoding q c)
  | .matchingUpgrade => some (matchNext (ascii "upgrade") .upgrade q c)
  | .connection | .contentLength | .transferEncoding | .upgrade =>
    some (if ch ≠ code ' ' then { q with headerState := .general } else q)
  | _ => none

def headerFieldCase (q : Parser) (ch : UInt8) : Plan :=
  let c := token ch
  if c ≠ 0 then
    match fieldHeaderState q ch c with
    | none => .fault .assertion
    | some q => .next q
  else if ch = code ':' then
    .data .headerField { q with state := .headerValueDiscardWs }
      (.next { q with state := .headerValueDiscardWs })
  else .error .invalidHeaderToken q

/-- The switch on `header_state` in `s_header_value_start`; `none` is its error. -/
def firstOfValue (q : Parser) (ch : UInt8) : Option Parser :=
  let c := lower ch
  match q.headerState with
  | .upgrade => some { q with flags.upgrade := true, headerState := .general }
  | .transferEncoding =>
    some { q with
      headerState := if c = code 'c' then .matchingTransferEncodingChunked else .general }
  | .contentLength => if !isNum ch then none else some { q with contentLength := digit ch }
  | .connection =>
    some { q with
      headerState :=
        if c = code 'k' then .matchingConnectionKeepAlive
        else if c = code 'c' then .matchingConnectionClose
        else .general }
  | _ => some { q with headerState := .general }

def headerValueStartCase (q : Parser) (ch : UInt8) : Plan :=
  .mark .headerValue <|
    let q := { q with state := .headerValue, index := 0 }
    match firstOfValue q ch with
    | none => .error .invalidContentLength q
    | some q => .next q

def headerValueDiscardWsCase (q : Parser) (ch : UInt8) : Plan :=
  if ch = code ' ' ∨ ch = 9 then .next q
  else if ch = cr then .next { q with state := .headerValueDiscardWsAlmostDone }
  else if ch = lf then .next { q with state := .headerValueDiscardLws }
  else headerValueStartCase q ch

def headerValueDiscardLwsCase (q : Parser) (ch : UInt8) : Plan :=
  if ch = code ' ' ∨ ch = 9 then .next { q with state := .headerValueDiscardWs }
  else
    let q := { q with state := .headerFieldStart }
    .mark .headerValue <| .dataNoadvance .headerValue q <| headerFieldStartCase q ch

/-- The flag a header leaves behind. -/
def finishHeader (q : Parser) : Parser :=
  match q.headerState with
  | .connectionKeepAlive => { q with flags.connectionKeepAlive := true }
  | .connectionClose => { q with flags.connectionClose := true }
  | .transferEncodingChunked => { q with flags.chunked := true }
  | _ => q

def headerValueLwsCase (q : Parser) (ch : UInt8) : Plan :=
  if ch = code ' ' ∨ ch = 9 then headerValueStartCase { q with state := .headerValueStart } ch
  else
    headerFieldStartCase { finishHeader q with state := .headerFieldStart } ch

/-- What a character means for the switch on `header_state` in `s_header_value`. -/
inductive ValueChar where
  | go (q : Parser)
  /-- "Shouldn't get here." -/
  | assertion
  | invalidContentLength

/-- The switch on `header_state` in `s_header_value`. -/
def valueHeaderState (q : Parser) (ch : UInt8) : ValueChar :=
  let c := lower ch
  match q.headerState with
  | .general => .go q
  | .connection | .transferEncoding => .assertion
  | .contentLength =>
    if ch = code ' ' then .go q
    else if !isNum ch then .invalidContentLength
    else if (ullongMax - 10) / 10 < q.contentLength then .invalidContentLength
    else .go { q with contentLength := q.contentLength * 10 + digit ch }
  | .matchingTransferEncodingChunked =>
    .go (matchNext (ascii "chunked") .transferEncodingChunked q c)
  | .matchingConnectionKeepAlive => .go (matchNext (ascii "keep-alive") .connectionKeepAlive q c)
  | .matchingConnectionClose => .go (matchNext (ascii "close") .connectionClose q c)
  | .transferEncodingChunked | .connectionKeepAlive | .connectionClose =>
    .go (if ch ≠ code ' ' then { q with headerState := .general } else q)
  | _ => .go { q with state := .headerValue, headerState := .general }

def headerAlmostDoneCase (q : Parser) (ch : UInt8) : Plan :=
  expectCase lf .headerValueLws q ch

def headerValueCase (q : Parser) (ch : UInt8) : Plan :=
  if ch = cr then
    .data .headerValue { q with state := .headerAlmostDone }
      (.next { q with state := .headerAlmostDone })
  else if ch = lf then
    let q := { q with state := .headerAlmostDone }
    .dataNoadvance .headerValue q (headerAlmostDoneCase q ch)
  else
    match valueHeaderState q ch with
    | .go q => .next q
    | .assertion => .fault .assertion
    | .invalidContentLength => .error .invalidContentLength q

/-! ## The switch -/

/-- The case `s_dead`. -/
def deadCase (q : Parser) (ch : UInt8) : Plan :=
  if ch = cr ∨ ch = lf then .next q else .error .closedConnection q

/-- The switch on the state, at the byte `ch` with `avail` bytes from it on. -/
def switch (q : Parser) (ch : UInt8) (avail : Nat) : Plan :=
  match q.state with
  | .dead => deadCase q ch
  | .startReqOrRes => startReqOrResCase q ch
  | .resOrRespH => resOrRespHCase q ch
  | .startRes => startResCase q ch
  | .resH => expectCase (code 'T') .resHT q ch
  | .resHT => expectCase (code 'T') .resHTT q ch
  | .resHTT => expectCase (code 'P') .resHTTP q ch
  | .resHTTP => expectCase (code '/') .resFirstHttpMajor q ch
  | .resFirstHttpMajor => resFirstHttpMajorCase q ch
  | .resHttpMajor => httpMajorCase .resFirstHttpMinor q ch
  | .resFirstHttpMinor => firstHttpMinorCase .resHttpMinor q ch
  | .resHttpMinor => resHttpMinorCase q ch
  | .resFirstStatusCode => resFirstStatusCodeCase q ch
  | .resStatusCode => resStatusCodeCase q ch
  | .resStatusStart => resStatusStartCase q ch
  | .resStatus => resStatusCase q ch
  | .resLineAlmostDone => expectCase lf .headerFieldStart q ch
  | .startReq => startReqCase q ch
  | .reqMethod => reqMethodCase q ch
  | .reqSpacesBeforeUrl => reqSpacesBeforeUrlCase q ch
  | .reqSchema | .reqSchemaSlash | .reqSchemaSlashSlash | .reqServerStart => reqSchemaCase q ch
  | .reqServer | .reqServerWithAt | .reqPath | .reqQueryStringStart | .reqQueryString
  | .reqFragmentStart | .reqFragment => reqServerCase q ch
  | .reqHttpStart => reqHttpStartCase q ch
  | .reqHttpH => expectCase (code 'T') .reqHttpHT q ch
  | .reqHttpHT => expectCase (code 'T') .reqHttpHTT q ch
  | .reqHttpHTT => expectCase (code 'P') .reqHttpHTTP q ch
  | .reqHttpHTTP => expectCase (code '/') .reqFirstHttpMajor q ch
  | .reqFirstHttpMajor => reqFirstHttpMajorCase q ch
  | .reqHttpMajor => httpMajorCase .reqFirstHttpMinor q ch
  | .reqFirstHttpMinor => firstHttpMinorCase .reqHttpMinor q ch
  | .reqHttpMinor => reqHttpMinorCase q ch
  | .reqLineAlmostDone => reqLineAlmostDoneCase q ch
  | .headerFieldStart => headerFieldStartCase q ch
  | .headerField => headerFieldCase q ch
  | .headerValueDiscardWs => headerValueDiscardWsCase q ch
  | .headerValueDiscardWsAlmostDone => expectCase lf .headerValueDiscardLws q ch
  | .headerValueDiscardLws => headerValueDiscardLwsCase q ch
  | .headerValueStart => headerValueStartCase q ch
  | .headerValue => headerValueCase q ch
  | .headerValueLws => headerValueLwsCase q ch
  | .headerAlmostDone => headerAlmostDoneCase q ch
  | .chunkSizeStart => chunkSizeStartCase q ch
  | .chunkSize => chunkSizeCase q ch
  | .chunkParameters => chunkParametersCase q ch
  | .chunkSizeAlmostDone => chunkSizeAlmostDoneCase q ch
  | .headersAlmostDone => headersAlmostDoneCase q ch
  | .headersDone => headersDoneCase q ch
  | .chunkData => chunkDataCase q avail
  | .chunkDataAlmostDone => chunkDataAlmostDoneCase q ch
  | .chunkDataDone => chunkDataDoneCase q ch
  | .bodyIdentity => bodyIdentityCase q avail
  | .bodyIdentityEof => bodyIdentityEofCase q avail
  | .messageDone => messageDoneCase q

end Sails.HttpParser
