import Sails.Net.HttpParser.HeaderValues

/-!
# Reading a request

A request line, headers, the blank line and a body that is as long as the headers say.

- `announced`, `reads_headers`: all headers
- `keepAlive`, `Parser.tells`: what the callbacks are told of a request
- `reads_blank`: the blank line, where the headers end
- `reads_body`: a body of known length
- `PlainRequest`, `reads_request`: the whole of it
- `reads_requests`, `apart_requestCallbacks`: requests on a connection
-/

namespace Sails.HttpParser

open CMemory
open Coalesce
open Sails.Net (Callback)

/-! ## Headers -/

/-- What headers announce, one after the other. -/
def announced (hs : List HeaderLine) (a : Flags × Nat) : Option (Flags × Nat) :=
  hs.foldlM (fun a h => h.announces a) a

/-- The text of headers. -/
def headersText (hs : List HeaderLine) : Bytes := hs.flatMap HeaderLine.text

/-- **The headers**, one after the other. -/
theorem reads_headers {r : Reader} {q : Parser} {w : List Callback} (hs : List HeaderLine)
    {a : Flags × Nat} (hat : AtLine r q w) (ha : announced hs (q.flags, q.contentLength) = some a)
    (hn : q.nread + (headersText hs).length ≤ httpMaxHeaderSize) :
    ∃ r' i hd s, Reads r (headersText hs) r' ∧
      AtLine r' { q with
        flags := a.1
        contentLength := a.2
        index := i
        headerState := hd
        state := s
        nread := q.nread + (headersText hs).length } (w ++ hs.flatMap HeaderLine.callbacks) := by
  -- by induction on the lines; the reader is at the start of a line between them
  induction hs generalizing r q w with
  | nil =>
    obtain rfl := Option.some.inj ha
    refine ⟨r, q.index, q.headerState, q.state, Reads.nil r, ?_⟩
    rw [List.flatMap_nil, List.append_nil]
    exact hat
  | cons h hs ih =>
    rw [announced, List.foldlM_cons] at ha
    obtain ⟨b, hb, hrest⟩ := Option.bind_eq_some_iff.mp ha
    have hlen : (headersText (h :: hs)).length = h.text.length + (headersText hs).length := by
      rw [headersText, List.flatMap_cons, List.length_append, headersText]
    rw [hlen] at hn ⊢
    obtain ⟨r₁, i₁, hd₁, s₁, hread, hat₁⟩ := reads_headerLine h hat hb (by omega)
    obtain ⟨r', i, hd, s, hreads, hat'⟩ := ih hat₁ hrest (by dsimp only; omega)
    refine ⟨r', i, hd, s, hread.append hreads, ?_⟩
    rw [List.flatMap_cons, ← List.append_assoc, ← Nat.add_assoc]
    exact hat'

/-- Headers leave the flags alone that belong to the body. -/
theorem announces_frame {h : HeaderLine} {a b : Flags × Nat} (hb : h.announces a = some b) :
    b.1.trailing = a.1.trailing ∧ b.1.skipbody = a.1.skipbody := by
  unfold HeaderLine.announces announce at hb
  split_ifs at hb
  · obtain rfl := Option.some.inj hb
    exact ⟨rfl, rfl⟩
  · obtain ⟨l, -, rfl⟩ := Option.map_eq_some_iff.mp hb
    exact ⟨rfl, rfl⟩
  · obtain rfl := Option.some.inj hb
    dsimp only
    unfold announceFlags
    split
    · exact ⟨rfl, rfl⟩
    · split_ifs <;> exact ⟨rfl, rfl⟩
    · split_ifs <;> exact ⟨rfl, rfl⟩
    · exact ⟨rfl, rfl⟩

theorem announced_frame {hs : List HeaderLine} {a b : Flags × Nat} (hb : announced hs a = some b) :
    b.1.trailing = a.1.trailing ∧ b.1.skipbody = a.1.skipbody := by
  induction hs generalizing a with
  | nil =>
    obtain rfl := Option.some.inj hb
    exact ⟨rfl, rfl⟩
  | cons h hs ih =>
    rw [announced, List.foldlM_cons] at hb
    obtain ⟨c, hc, hrest⟩ := Option.bind_eq_some_iff.mp hb
    have hframe := announces_frame hc
    obtain ⟨htrailing, hskip⟩ := ih hrest
    exact ⟨htrailing.trans hframe.1, hskip.trans hframe.2⟩

/-! ## The blank line -/

/-- A request of this version with these flags leaves the connection open. -/
def keepAlive (major minor : Nat) (f : Flags) : Bool :=
  if major > 0 ∧ minor > 0 then !f.connectionClose else f.connectionKeepAlive

section Blank

variable {q : Parser} {r : Reader} {w : List Callback}

theorem shouldKeepAlive_request (ht : q.type = .request) :
    shouldKeepAlive q = keepAlive q.httpMajor q.httpMinor q.flags := by
  have heof : messageNeedsEof q = false := by rw [messageNeedsEof, if_pos ht]
  unfold shouldKeepAlive keepAlive
  rw [heof]
  split_ifs <;> simp_all

/-- What the callbacks are told of a request, and whether the body is complete. -/
def Parser.tells (q : Parser) (final : Bool) : Net.HttpParser where
  method := q.method.num
  statusCode := q.statusCode
  httpMajor := q.httpMajor
  httpMinor := q.httpMinor
  shouldKeepAlive := if keepAlive q.httpMajor q.httpMinor q.flags then 1 else 0
  bodyIsFinal := if final then 1 else 0

theorem view_request (ht : q.type = .request) : q.view = q.tells (bodyIsFinal q) := by
  rw [Parser.view, shouldKeepAlive_request ht]
  rfl

/-- The state behind a request. -/
def Parser.after (q : Parser) : State :=
  if keepAlive q.httpMajor q.httpMinor q.flags then .startReq else .dead

theorem newMessage_request (ht : q.type = .request) : newMessage q = q.after := by
  unfold newMessage Parser.after startState
  rw [shouldKeepAlive_request ht, if_pos ht]

theorem bodyIsFinal_after (q q' : Parser) : bodyIsFinal { q with state := q'.after } = false := by
  unfold bodyIsFinal Parser.after
  dsimp only
  split <;> rfl

/-- The end of a request. -/
theorem completeMessage_apply {ch : UInt8} {rest : Parser → Plan} (ht : q.type = .request)
    (hrest : rest = .next ∨ rest = .exit) :
    (completeMessage q rest).apply ch none w =
      some ⟨{ q with state := q.after }, none, w ++ [.messageComplete (q.tells false)]⟩ := by
  have hview : Parser.view { q with state := q.after } = q.tells false := by
    have hview := view_request (q := { q with state := q.after }) ht
    rw [bodyIsFinal_after] at hview
    exact hview
  unfold completeMessage
  rw [newMessage_request ht]
  obtain rfl | rfl := hrest <;> simp [Plan.apply, hview]

/-- Where the headers of a request are complete. -/
structure HeadersEnd (q : Parser) : Prop where
  request : q.type = .request
  no_trailing : q.flags.trailing = false
  no_skipbody : q.flags.skipbody = false

/-- The record that `headers_complete` is told of. -/
def Parser.complete (q : Parser) : Parser :=
  { q with
    nread := 0
    state := .headersDone
    upgrade := q.flags.upgrade || q.method = .connect }

/-- **The blank line** completes the headers, and the body begins if there is one. -/
theorem reads_blank {r' : Reader} (hat : AtLine r q w) (h : HeadersEnd q)
    (hn : q.nread + 2 ≤ httpMaxHeaderSize)
    (hr' : (headersDoneCase q.complete lf).apply lf none
      (w ++ [.headersComplete (q.tells false)]) = some r') :
    Reads r [cr, lf] r' := by
  have hcr : Reads r [cr] ⟨{ q with nread := q.nread + 1, state := .headersAlmostDone }, none, w⟩ :=
    hat.reads (by decide) (by decide) (by omega) rfl
  have hlf : Reads ⟨{ q with nread := q.nread + 1, state := .headersAlmostDone }, none, w⟩ [lf]
      r' := by
    refine Reads.header rfl (by dsimp only; omega) fun _ => ?_
    -- the parser as the callback sees it
    have hview : Parser.view { q with
        nread := q.nread + 1 + 1
        state := .headersDone
        upgrade := q.flags.upgrade || q.method = .connect } = q.tells false :=
      view_request (q := { q with
        nread := q.nread + 1 + 1
        state := .headersDone
        upgrade := q.flags.upgrade || q.method = .connect }) h.request
    -- these are the headers of the request, not a trailer behind its chunks
    have htrailing : ¬ q.flags.trailing = true := by simp [h.no_trailing]
    simp only [switch, headersAlmostDoneCase, strictCheck, ne_eq, not_true_eq_false, decide_false,
      Bool.false_eq_true, if_false, if_neg htrailing, Plan.apply, hview, Bool.or_false]
    exact hr'
  exact hcr.cons hlf

/-- No body. -/
theorem headersDone_noBody (h : HeadersEnd q)
    (hbody : q.complete.upgrade = true ∨
      q.flags.chunked = false ∧ (q.contentLength = 0 ∨ q.contentLength = ullongMax)) :
    (headersDoneCase q.complete lf).apply lf none w =
      some ⟨{ q.complete with state := q.after }, none,
        w ++ [.messageComplete (q.tells false)]⟩ := by
  have hskip : q.complete.flags.skipbody = false := h.no_skipbody
  -- an upgrade ends the message, and so do no length and a length of zero
  unfold headersDoneCase strictCheck
  dsimp only
  rw [if_neg (by decide)]
  obtain hup | ⟨hchunked, hlength⟩ := hbody
  · rw [if_pos hup]
    exact completeMessage_apply h.request (.inr rfl)
  · have hchunked' : q.complete.flags.chunked = false := hchunked
    by_cases hup : q.complete.upgrade = true
    · rw [if_pos hup]
      exact completeMessage_apply h.request (.inr rfl)
    · rw [if_neg hup, if_neg (by simp [hskip]), if_neg (by simp [hchunked'])]
      -- without a length a request has no body
      obtain hzero | hmax := hlength
      · have hzero' : q.complete.contentLength = 0 := hzero
        rw [if_pos hzero']
        exact completeMessage_apply h.request (.inl rfl)
      · have hmax' : q.complete.contentLength = ullongMax := hmax
        have hrequest : q.complete.type = .request := h.request
        rw [if_neg (by rw [hmax']; decide), if_neg (not_not.mpr hmax'), if_pos (.inl hrequest)]
        exact completeMessage_apply h.request (.inl rfl)

/-- A body of known length. -/
theorem headersDone_body (h : HeadersEnd q) (hup : q.complete.upgrade = false)
    (hchunked : q.flags.chunked = false) (hlength : q.contentLength ≠ 0)
    (hmax : q.contentLength ≠ ullongMax) :
    (headersDoneCase q.complete lf).apply lf none w =
      some ⟨{ q.complete with state := .bodyIdentity }, none, w⟩ := by
  have hskip : q.complete.flags.skipbody = false := h.no_skipbody
  have hchunked' : q.complete.flags.chunked = false := hchunked
  have hlength' : ¬ q.complete.contentLength = 0 := hlength
  have hmax' : q.complete.contentLength ≠ ullongMax := hmax
  simp only [headersDoneCase, strictCheck, ne_eq, not_true_eq_false, decide_false,
    Bool.false_eq_true, if_false, hup, hskip, hchunked', hlength', hmax', not_false_eq_true, if_true]
  rfl

end Blank

/-! ## A body of known length -/

section Body

variable {q : Parser} {w : List Callback}

/-- A byte of a body, which is not counted. -/
theorem Reads.body {pending : Option (DataKind × Bytes)} {ch : UInt8} {r' : Reader}
    (hs : q.state.parsingHeader = false)
    (h : q.Ok → (switch q ch 1).apply ch pending w = some r') :
    Reads ⟨q, pending, w⟩ [ch] r' := by
  have hcount : q.count = q := by rw [Parser.count, if_neg (by simp [hs])]
  refine Reads.byte ?_ (fun hok => hcount.symm ▸ h hok)
  dsimp only
  rw [hcount, Parser.overflows, hs]
  rfl

/-- The text that has been read of the body. -/
def bodySoFar : Option (DataKind × Bytes) → Option Bytes
  | none => some []
  | some (.body, t) => some t
  | some _ => none

/-- A byte of a body that is not the last. -/
theorem bodyByte_more {pending : Option (DataKind × Bytes)} {t : Bytes} {ch : UInt8}
    (ht : bodySoFar pending = some t) (hs : q.state = .bodyIdentity) {l : Nat}
    (hl : q.contentLength = l + 1) (h0 : l ≠ 0) (hmax : q.contentLength ≠ ullongMax) :
    (switch q ch 1).apply ch pending w =
      some ⟨{ q with contentLength := l }, some (.body, t ++ [ch]), w⟩ := by
  have hmin : min q.contentLength 1 = 1 := by omega
  have hrest : q.contentLength - 1 = l := by omega
  have hlength : q.contentLength ≠ 0 := by omega
  simp only [switch, hs, bodyIdentityCase, assert, hlength, hmax, hmin, hrest, if_neg h0, ne_eq,
    not_false_eq_true, and_self, decide_true, if_true]
  unfold bodySoFar at ht
  split at ht
  · obtain rfl := Option.some.inj ht
    rfl
  · obtain rfl := Option.some.inj ht
    rfl
  · cases ht

/-- The last byte of a body. -/
theorem bodyByte_last {pending : Option (DataKind × Bytes)} {t : Bytes} {ch : UInt8}
    (ht : bodySoFar pending = some t) (hs : q.state = .bodyIdentity) (hl : q.contentLength = 1)
    (hrequest : q.type = .request) :
    (switch q ch 1).apply ch pending w =
      some ⟨{ q with contentLength := 0, state := q.after }, none,
        w ++ [.body (q.tells true) (t ++ [ch]), .messageComplete (q.tells false)]⟩ := by
  have hmax : q.contentLength ≠ ullongMax := by rw [hl]; decide
  have hview : Parser.view { q with contentLength := 0, state := .messageDone } = q.tells true :=
    view_request (q := { q with contentLength := 0, state := .messageDone }) hrequest
  -- the byte is handed over with what was marked, and the message is complete
  have hdone : (messageDoneCase { q with contentLength := 0, state := .messageDone }).apply ch none
      (w ++ [.body (q.tells true) (t ++ [ch])]) = _ :=
    completeMessage_apply hrequest (.inl rfl)
  simp only [switch, hs, bodyIdentityCase, assert, hl, ne_eq, Nat.one_ne_zero, not_false_eq_true,
    true_and, min_self, Nat.sub_self, if_true]
  rw [if_pos (by decide)]
  rw [List.append_assoc, List.singleton_append] at hdone
  have happly : ∀ u : Bytes, (Plan.dataThrough .body
      { q with contentLength := 0, state := .messageDone }
      (messageDoneCase { q with contentLength := 0, state := .messageDone })).apply ch
        (some (.body, u)) w =
      (messageDoneCase { q with contentLength := 0, state := .messageDone }).apply ch none
        (w ++ [.body (q.tells true) (u ++ [ch])]) := by
    intro u
    rw [← hview]
    rfl
  -- a mark that stands is one of the body
  unfold bodySoFar at ht
  split at ht
  · obtain rfl := Option.some.inj ht
    exact (happly []).trans hdone
  · obtain rfl := Option.some.inj ht
    exact (happly _).trans hdone
  · cases ht

/-- **A body** of as many bytes as are announced is handed over, and the request is complete. -/
theorem reads_body {pending : Option (DataKind × Bytes)} {t body : Bytes}
    (ht : bodySoFar pending = some t) (hs : q.state = .bodyIdentity) (hrequest : q.type = .request)
    (hl : q.contentLength = body.length) (hne : body ≠ []) (hmax : q.contentLength ≤ ullongMax - 1) :
    Reads ⟨q, pending, w⟩ body
      ⟨{ q with contentLength := 0, state := q.after }, none,
        w ++ [.body (q.tells true) (t ++ body), .messageComplete (q.tells false)]⟩ := by
  have hbig : 0 < ullongMax := by decide
  -- by induction on the body: the last byte completes the message, any other is marked
  induction body generalizing q pending t with
  | nil => exact absurd rfl hne
  | cons ch body ih =>
    rw [List.length_cons] at hl
    by_cases hlast : body = []
    · subst hlast
      exact Reads.body (by rw [hs]; rfl) fun _ => bodyByte_last ht hs hl hrequest
    · have hpos := List.length_pos_iff.mpr hlast
      have hbyte : Reads ⟨q, pending, w⟩ [ch]
          ⟨{ q with contentLength := body.length }, some (.body, t ++ [ch]), w⟩ :=
        Reads.body (by rw [hs]; rfl) fun _ => bodyByte_more ht hs hl (by omega) (by omega)
      have hmore := ih (q := { q with contentLength := body.length })
        (show bodySoFar (some (.body, t ++ [ch])) = some (t ++ [ch]) from rfl) hs hrequest rfl hlast
        (by dsimp only; omega)
      rw [List.append_assoc, List.singleton_append] at hmore
      exact hbyte.cons hmore

end Body

/-! ## A request -/

/-- A request whose body is not chunked. -/
structure PlainRequest where
  line : RequestLine
  headers : List HeaderLine
  body : Bytes
  flags : Flags
  contentLength : Nat
  /-- the headers announce these flags and this length -/
  announces : announced headers (.zero, ullongMax) = some (flags, contentLength)
  /-- the body is the one that is announced -/
  framed : if flags.upgrade ∨ line.method = .connect then body = []
    else flags.chunked = false ∧
      (contentLength = body.length ∧ body.length < ullongMax ∨ contentLength = ullongMax ∧ body = [])

namespace PlainRequest

variable (r : PlainRequest)

/-- The part whose size is limited. -/
def head : Bytes := r.line.text ++ headersText r.headers ++ [cr, lf]

def text : Bytes := r.head ++ r.body

/-- The connection stays open behind the request. -/
def keepsAlive : Bool :=
  keepAlive (digitsFrom 0 r.line.version.major) (digitsFrom 0 r.line.version.minor) r.flags

/-- What the callbacks are told; the status code is that of the record. -/
def tells (statusCode : Nat) (final : Bool) : Net.HttpParser where
  method := r.line.method.num
  statusCode := statusCode
  httpMajor := digitsFrom 0 r.line.version.major
  httpMinor := digitsFrom 0 r.line.version.minor
  shouldKeepAlive := if r.keepsAlive then 1 else 0
  bodyIsFinal := if final then 1 else 0

/-- The callbacks for the body. -/
def bodyCallbacks (statusCode : Nat) : List Callback :=
  if r.body = [] then [] else [.body (r.tells statusCode true) r.body]

/-- The callbacks for the request. -/
def callbacks (statusCode : Nat) : List Callback :=
  [.messageBegin, .requestUrl r.line.url] ++ r.headers.flatMap HeaderLine.callbacks ++
    [.headersComplete (r.tells statusCode false)] ++ r.bodyCallbacks statusCode ++
    [.messageComplete (r.tells statusCode false)]

end PlainRequest

/-- The record where a request may begin. -/
structure Idle (q : Parser) : Prop where
  state : q.state = .startReq
  request : q.type = .request

/-- **A request** is read as it was written: its callbacks are made in their order and with its
texts, and the parser is ready for the next if the connection stays open. -/
theorem reads_request {q : Parser} {w : List Callback} (r : PlainRequest) (hq : Idle q)
    (hn : q.nread + r.head.length ≤ httpMaxHeaderSize) :
    ∃ q', Reads ⟨q, none, w⟩ r.text ⟨q', none, w ++ r.callbacks q.statusCode⟩ ∧
      q'.type = .request ∧ q'.statusCode = q.statusCode ∧ q'.nread = 0 ∧
      q'.state = if r.keepsAlive then .startReq else .dead := by
  have hlen : r.head.length = r.line.text.length + (headersText r.headers).length + 2 := by
    simp only [PlainRequest.head, List.length_append, List.length_cons, List.length_nil]
  have hline := reads_requestLine (w := w) r.line hq.state (by omega)
  have hcount : (r.line.record q).nread = q.nread + r.line.text.length := rfl
  obtain ⟨r₁, i, hd, s, hheaders, hat⟩ := reads_headers (q := r.line.record q) r.headers
    (atLine_start (w := w ++ [.messageBegin, .requestUrl r.line.url]) rfl) r.announces
    (by omega)
  -- the parser behind the header lines
  let q₁ : Parser := { r.line.record q with
    flags := r.flags
    contentLength := r.contentLength
    index := i
    headerState := hd
    state := s
    nread := (r.line.record q).nread + (headersText r.headers).length }
  have hframe := announced_frame r.announces
  have hend : HeadersEnd q₁ := ⟨hq.request, hframe.1, hframe.2⟩
  have htells : ∀ final, q₁.tells final = r.tells q.statusCode final := fun _ => rfl
  have hafter : q₁.after = if r.keepsAlive then .startReq else .dead := rfl
  have hupgrade : q₁.complete.upgrade = true ↔ r.flags.upgrade = true ∨ r.line.method = .connect := by
    show (r.flags.upgrade || decide (r.line.method = .connect)) = true ↔ _
    simp
  -- the line and the headers have been read; the blank line is next
  have hread := hline.append hheaders
  have hframed := r.framed
  by_cases hbody : r.body = []
  -- the request ends with its blank line
  · have hnoBody : q₁.complete.upgrade = true ∨
        q₁.flags.chunked = false ∧ (q₁.contentLength = 0 ∨ q₁.contentLength = ullongMax) := by
      split_ifs at hframed with hup
      · exact .inl (hupgrade.mpr hup)
      · obtain ⟨hchunked, ⟨hl, -⟩ | ⟨hl, -⟩⟩ := hframed
        · exact .inr ⟨hchunked, .inl (by rw [show q₁.contentLength = _ from hl, hbody]; rfl)⟩
        · exact .inr ⟨hchunked, .inr hl⟩
    have hblank := reads_blank hat hend (by dsimp only; omega) (headersDone_noBody hend hnoBody)
    refine ⟨{ q₁.complete with state := q₁.after }, ?_, hq.request, rfl, rfl, hafter⟩
    have hall := hread.append hblank
    rw [htells] at hall
    rw [PlainRequest.text, PlainRequest.head, hbody, List.append_nil, PlainRequest.callbacks,
      PlainRequest.bodyCallbacks, if_pos hbody, List.append_nil]
    simpa only [List.append_assoc] using hall
  -- a request with a body is no upgrade
  · have hnotUp : ¬ (r.flags.upgrade = true ∨ r.line.method = .connect) := by
      intro hup
      rw [if_pos hup] at hframed
      exact hbody hframed
    rw [if_neg hnotUp] at hframed
    obtain ⟨hchunked, ⟨hl, hlt⟩ | ⟨-, hnil⟩⟩ := hframed
    · have hpos := List.length_pos_iff.mpr hbody
      have hl' : q₁.contentLength = r.body.length := hl
      have hne : q₁.contentLength ≠ 0 := by omega
      have hmax : q₁.contentLength ≠ ullongMax := by omega
      have hup : q₁.complete.upgrade = false := by simpa using mt hupgrade.mp hnotUp
      -- the blank line leads to the body, whose length is announced
      have hblank := reads_blank hat hend (by dsimp only; omega)
        (headersDone_body hend hup hchunked hne hmax)
      have hbodyRead := reads_body (q := { q₁.complete with state := .bodyIdentity })
        (w := w ++ [.messageBegin, .requestUrl r.line.url] ++
          r.headers.flatMap HeaderLine.callbacks ++ [.headersComplete (q₁.tells false)])
        (show bodySoFar none = some [] from rfl) rfl hq.request hl' hbody (by
          show q₁.contentLength ≤ _
          omega)
      refine ⟨{ q₁.complete with contentLength := 0, state := q₁.after }, ?_, hq.request, rfl, rfl,
        hafter⟩
      have htells' : ∀ final, Parser.tells { q₁.complete with state := .bodyIdentity } final =
          r.tells q.statusCode final := fun _ => rfl
      have hall := (hread.append hblank).append hbodyRead
      rw [htells, htells', htells'] at hall
      rw [PlainRequest.text, PlainRequest.head, PlainRequest.callbacks, PlainRequest.bodyCallbacks,
        if_neg hbody]
      simp only [List.append_assoc, List.nil_append, List.cons_append] at hall ⊢
      exact hall
    · exact absurd hnil hbody

/-! ## Requests on a connection -/

section Pipeline

variable {q : Parser} {w : List Callback}

/-- Every request but the last leaves the connection open. -/
def StaysOpen (rs : List PlainRequest) : Prop := ∀ r ∈ rs.dropLast, r.keepsAlive = true

/-- The callbacks of requests, one after the other. -/
def requestCallbacks (rs : List PlainRequest) : List Callback :=
  rs.flatMap fun r => r.callbacks 0

/-- Requests one after the other. -/
theorem reads_requests (rs : List PlainRequest) (hq : Idle q) (hstatus : q.statusCode = 0)
    (hnread : q.nread = 0) (hopen : StaysOpen rs)
    (hhead : ∀ r ∈ rs, r.head.length ≤ httpMaxHeaderSize) :
    ∃ q', Reads ⟨q, none, w⟩ (rs.flatMap PlainRequest.text)
      ⟨q', none, w ++ requestCallbacks rs⟩ := by
  -- by induction on the requests: the parser is idle between two of them
  induction rs generalizing q w with
  | nil =>
    refine ⟨q, ?_⟩
    have hnone : w ++ requestCallbacks [] = w := List.append_nil w
    rw [hnone]
    exact Reads.nil _
  | cons r rs ih =>
    have hr := hhead r (List.mem_cons_self ..)
    obtain ⟨q₁, hread, htype, hstatus₁, hnread₁, hstate⟩ := reads_request (w := w) r hq
      (by omega)
    rw [hstatus] at hread hstatus₁
    cases rs with
    | nil =>
      refine ⟨q₁, ?_⟩
      simpa [requestCallbacks] using hread
    | cons r' rs =>
      -- behind a request that closes the connection no other would be read
      have hkeeps : r.keepsAlive = true := hopen r (by simp)
      rw [if_pos hkeeps] at hstate
      obtain ⟨q', hreads⟩ := ih (w := w ++ r.callbacks 0) ⟨hstate, htype⟩ hstatus₁ hnread₁
        (fun x hx => hopen x (by
          rw [List.dropLast_cons_cons]
          exact List.mem_cons_of_mem _ hx))
        (fun x hx => hhead x (List.mem_cons_of_mem _ hx))
      refine ⟨q', ?_⟩
      have hmade : w ++ requestCallbacks (r :: r' :: rs) =
          w ++ r.callbacks 0 ++ requestCallbacks (r' :: rs) := by
        rw [requestCallbacks, List.flatMap_cons, List.append_assoc, requestCallbacks]
      have htext : (r :: r' :: rs).flatMap PlainRequest.text =
          r.text ++ (r' :: rs).flatMap PlainRequest.text := List.flatMap_cons
      rw [hmade, htext]
      exact hread.append hreads

/-- No two neighbours bring pieces of one text. -/
abbrev Apart (l : List Callback) : Prop := l.IsChain fun a b => ¬ pieces.Joinable a b

/-- A callback in front of others that begin with none of its kind. -/
theorem apart_cons {e : Callback} {l : List Callback} (hl : Apart l)
    (he : pieceKind e = none ∨ ∀ x ∈ l.head?, pieceKind x ≠ pieceKind e) : Apart (e :: l) := by
  refine List.isChain_cons.mpr ⟨fun x hx hjoin => ?_, hl⟩
  obtain hnone | hne := he
  · have hsome : (pieceKind e).isSome := hjoin.1
    rw [hnone] at hsome
    cases hsome
  · exact hne x hx hjoin.2.symm

/-- Headers begin with a name. -/
theorem head_headers (hs : List HeaderLine) {l : List Callback} {k : DataKind}
    (hk : k ≠ .headerField) (hhead : ∀ x ∈ l.head?, pieceKind x ≠ some k) :
    ∀ x ∈ (hs.flatMap HeaderLine.callbacks ++ l).head?, pieceKind x ≠ some k := by
  cases hs with
  | nil => exact hhead
  | cons h hs => simpa [HeaderLine.callbacks, pieceKind] using hk.symm

/-- Headers in front of callbacks that do not begin with a value. -/
theorem apart_headers (hs : List HeaderLine) {l : List Callback} (hl : Apart l)
    (hhead : ∀ x ∈ l.head?, pieceKind x ≠ some .headerValue) :
    Apart (hs.flatMap HeaderLine.callbacks ++ l) := by
  induction hs with
  | nil => exact hl
  | cons h hs ih =>
    have hvalue : Apart (.headerValue h.value :: (hs.flatMap HeaderLine.callbacks ++ l)) :=
      apart_cons ih (.inr (head_headers hs (by decide) hhead))
    have hfield : Apart (.headerField h.name :: .headerValue h.value ::
        (hs.flatMap HeaderLine.callbacks ++ l)) :=
      apart_cons hvalue (.inr (by simp [pieceKind]))
    simpa [HeaderLine.callbacks] using hfield

/-- The beginning of a message in front of what follows its headers. -/
theorem apart_message (url : Bytes) (hs : List HeaderLine) (p : Net.HttpParser) {l : List Callback}
    (hl : Apart l) :
    Apart (.messageBegin :: .requestUrl url ::
      (hs.flatMap HeaderLine.callbacks ++ .headersComplete p :: l)) := by
  have hcomplete : Apart (.headersComplete p :: l) := apart_cons hl (.inl rfl)
  have hheaders := apart_headers hs hcomplete (by simp [pieceKind])
  have hurl := apart_cons (e := .requestUrl url) hheaders
    (.inr (head_headers hs (by decide) (by simp [pieceKind])))
  exact apart_cons hurl (.inl rfl)

/-- No two neighbours among the callbacks of a request bring pieces of one text. -/
theorem apart_callbacks (r : PlainRequest) {l : List Callback} (hl : Apart l) :
    Apart (r.callbacks 0 ++ l) := by
  have hdone : Apart (.messageComplete (r.tells 0 false) :: l) := apart_cons hl (.inl rfl)
  have hbody : Apart (r.bodyCallbacks 0 ++ .messageComplete (r.tells 0 false) :: l) := by
    unfold PlainRequest.bodyCallbacks
    split
    · exact hdone
    · exact apart_cons hdone (.inr (by simp [pieceKind]))
  have hall := apart_message r.line.url r.headers (r.tells 0 false) hbody
  simpa [PlainRequest.callbacks] using hall

theorem apart_requestCallbacks (rs : List PlainRequest) : Apart (requestCallbacks rs) := by
  induction rs with
  | nil => exact List.isChain_nil
  | cons r rs ih =>
    rw [requestCallbacks, List.flatMap_cons]
    exact apart_callbacks r ih

/-- `POST /a HTTP/1.1`, with a length and a body. -/
def postRequest : PlainRequest where
  line := {
    method := .post
    url := ascii "/a"
    version := {
      major := ascii "1"
      minor := ascii "1"
      major_digits := forall_mem_of_all (by decide)
      minor_digits := forall_mem_of_all (by decide)
      major_first := ⟨_, _, rfl, by decide⟩
      minor_ne_nil := by decide
      major_le := by decide
      minor_le := by decide }
    accepted := by decide }
  headers := [{
    name := ascii "Content-Length"
    ws := ascii " "
    value := ascii "3"
    name_ok := by decide
    ws_ok := isWs_blank
    value_first := forall_head_of_all (by decide)
    value_ok := forall_mem_of_all (by decide) }]
  body := ascii "abc"
  flags := .zero
  contentLength := 3
  announces := by decide
  framed := by decide

end Pipeline

end Sails.HttpParser
