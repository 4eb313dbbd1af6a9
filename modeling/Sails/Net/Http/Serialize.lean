import Sails.Net.Http.Headers

/-!
# `message_to_string`

A message as the text that is sent. The length of the text is computed first, and the text is then
put together in a zeroed block of that length, each part where `strlen` finds the end of the last.

- `statusLine`, `headersLen`, `appendHeaders`, `messageToString`: translated from `http.cc`
- `Outgoing`: a message as lists of bytes, with its head and its text
- `messageToString_eq`: the block holds the text, a line end and a NUL

All lengths are far below 2^31 here, so that `uint32_t` and `int` hold them.
-/

namespace Sails.Net

open TransitionRun
open CMemory
open Sails.Base

/-! ## The source -/

/-- `enum http_parser_type`, as far as messages have one. -/
inductive HttpParserType where
  | request
  | response
  deriving DecidableEq

/-- `kResponseStatus`: status codes and reason phrases. -/
def kResponseStatus : List (Nat × String) :=
  [(100, "Continue"), (101, "Switching Protocols"), (200, "OK"), (201, "Created"),
    (202, "Accepted"), (203, "Non-Authoritative Information"), (204, "No Content"),
    (205, "Reset Content"), (206, "Partial Content"), (300, "Multiple Choices"),
    (301, "Moved Permanently"), (302, "Found"), (303, "See Other"), (304, "Not Modified"),
    (305, "Use Proxy"), (307, "Temporary Redirect"), (400, "Bad Request"), (401, "Unauthorized"),
    (402, "Payment Required"), (403, "Forbidden"), (404, "Not Found"),
    (405, "Method Not Allowed"), (406, "Not Acceptable"), (407, "Proxy Authentication Required"),
    (408, "Request Timeout"), (409, "Conflict"), (410, "Gone"), (411, "Length Required"),
    (412, "Precondition Failed"), (413, "Request Entity Too Large"), (414, "Request-URI Too Long"),
    (415, "Unsupported Media Type"), (416, "Requested Range Not Satisfiable"),
    (417, "Expectation Failed"), (500, "Internal Server Error"), (501, "Not Implemented"),
    (502, "Bad Gateway"), (503, "Service Unavailable"), (504, "Gateway Timeout"),
    (505, "HTTP Version Not Supported")]

/-- `HttpResponse::StatusCodeToReasonPhrase`; `none` is `NULL`. -/
def statusCodeToReasonPhrase (statusCode : Nat) : Option Bytes :=
  (kResponseStatus.lookup statusCode).map ascii

/-- The size of the local `statusLine`. -/
def statusLineSize : Nat := maxElementSize + 30

/-- What `snprintf` prints for the request line; both branches of the source take `GET`. -/
def requestLine (m : HttpMessage) : Bytes :=
  let methodStr := if m.method = 1 then ascii "GET" else ascii "GET"
  methodStr ++ ascii " " ++ m.requestUrl.str ++ ascii " HTTP/" ++ decimal m.httpMajor ++ ascii "." ++
    decimal m.httpMinor

/-- What `snprintf` prints for the status line. -/
def responseLine (httpMajor httpMinor statusCode : Nat) (phrase : Bytes) : Bytes :=
  ascii "HTTP/" ++ decimal httpMajor ++ ascii "." ++ decimal httpMinor ++ ascii " " ++
    decimal statusCode ++ ascii " " ++ phrase

/-- The local `statusLine`; printing a reason phrase that is `NULL` is a fault. -/
def statusLine (type : HttpParserType) (m : HttpMessage) :
    Except Fault (CharArray statusLineSize) :=
  match type with
  | .request => (CharArray.zero _).snprintf (requestLine m)
  | .response =>
    match statusCodeToReasonPhrase m.statusCode with
    | none => .error .nullPointer
    | some phrase =>
      (CharArray.zero _).snprintf (responseLine m.httpMajor m.httpMinor m.statusCode phrase)

/-- The loop that adds up the lengths of `remaining` header lines from `i` on. -/
def headersLen (headers : Fin maxHeaders → Header) (i : Nat) : Nat → Except Fault Nat
  | 0 => .ok 0
  | remaining + 1 =>
    if h : i < maxHeaders then do
      let name ← strlen (headers ⟨i, h⟩).name.bytes
      let value ← strlen (headers ⟨i, h⟩).value.bytes
      let rest ← headersLen headers (i + 1) remaining
      .ok (name + value + 3 + rest)
    else .error .outOfBounds

/-- `strncpy` of a whole string to the end of `raw`. -/
def extendStr {n k : Nat} (raw : CharArray n) (a : CharArray k) : Except Fault (CharArray n) := do
  let len ← strlen a.bytes
  raw.extend (a.bytes.take len)

/-- `'\r'` and `'\n'`, each at the end of `raw`. -/
def extendCrlf {n : Nat} (raw : CharArray n) : Except Fault (CharArray n) := do
  let raw ← raw.extend [13]
  raw.extend [10]

/-- The loop that appends `remaining` header lines from `i` on. -/
def appendHeaders {n : Nat} (raw : CharArray n) (headers : Fin maxHeaders → Header) (i : Nat) :
    Nat → Except Fault (CharArray n)
  | 0 => .ok raw
  | remaining + 1 =>
    if h : i < maxHeaders then do
      let raw ← extendStr raw (headers ⟨i, h⟩).name
      let raw ← raw.extend [58]
      let raw ← extendStr raw (headers ⟨i, h⟩).value
      let raw ← extendCrlf raw
      appendHeaders raw headers (i + 1) remaining
    else .error .outOfBounds

/-- The first `count` bytes of `body`; reading behind the array is a fault. -/
def loadBody (m : HttpMessage) (count : Nat) : Except Fault Bytes :=
  if count ≤ maxBodySize then .ok (m.body.bytes.take count) else .error .outOfBounds

/-- The block of `totalLen` bytes `message_to_string` fills, part by part. -/
def fillRaw (totalLen : Nat) (line : Bytes) (m : HttpMessage) :
    Except Fault (CharArray totalLen) := do
  let raw ← (CharArray.zero totalLen).store 0 line
  let raw ← extendCrlf raw
  let raw ← appendHeaders raw m.headers 0 m.numHeaders.toNat
  let raw ← extendCrlf raw
  let body ← loadBody m m.bodySize
  let raw ← raw.extend body
  let raw ← raw.store (totalLen - 3) [13]
  raw.store (totalLen - 2) [10]

/-- `message_to_string`: the bytes it copies to `data`. -/
def messageToString (type : HttpParserType) (m : HttpMessage) (len : Nat) : Except Fault Bytes := do
  let line ← statusLine type m
  let lineLen ← strlen line.bytes
  let statusLen := lineLen + 2
  let headLen := (← headersLen m.headers 0 m.numHeaders.toNat) + 2
  let totalLen := statusLen + headLen + (m.bodySize + 2) + 1
  let raw ← fillRaw totalLen (line.bytes.take lineLen) m
  let cpyLen := if totalLen > len then len else totalLen
  .ok (raw.bytes.take cpyLen)

/-! ## Messages as lists of bytes -/

def crlf : Bytes := [13, 10]

/-- A message to be sent. -/
structure Outgoing where
  startLine : Bytes
  headers : List (Bytes × Bytes)
  body : Bytes

namespace Outgoing

/-- `name:value` and a line end. -/
def headerLine (h : Bytes × Bytes) : Bytes := h.1 ++ 58 :: h.2 ++ crlf

/-- Everything up to the blank line, and this line. -/
def head (o : Outgoing) : Bytes := o.startLine ++ crlf ++ o.headers.flatMap headerLine ++ crlf

/-- The message as the grammar has it. -/
def text (o : Outgoing) : Bytes := o.head ++ o.body

/-- The message respects the sizes of a record. -/
structure Fits (o : Outgoing) : Prop where
  startLine : IsText statusLineSize o.startLine
  headers_le : o.headers.length ≤ maxHeaders
  headers : ∀ h ∈ o.headers, IsText maxElementSize h.1 ∧ IsText maxElementSize h.2
  body : o.body.length ≤ maxBodySize

/-- The record holds the message. -/
structure HeldBy (o : Outgoing) (type : HttpParserType) (m : HttpMessage) : Prop where
  startLine : statusLine type m = .ok (.ofBytes _ o.startLine)
  numHeaders : m.numHeaders = o.headers.length
  headers : m.headers = headerTable o.headers
  body : m.body = .ofBytes _ o.body
  bodySize : m.bodySize = o.body.length

end Outgoing

/-! ## Putting the text together -/

theorem strlen_ofBytes {n : Nat} {s : Bytes} (h : IsText n s) :
    strlen (CharArray.ofBytes n s).bytes = .ok s.length := by
  rw [CharArray.strlen_bytes (CharArray.terminated_ofBytes h.1), CharArray.str_ofBytes h.1 h.2]

theorem headersLen_eq (done rest : List (Bytes × Bytes))
    (hle : (done ++ rest).length ≤ maxHeaders)
    (htexts : ∀ h ∈ rest, IsText maxElementSize h.1 ∧ IsText maxElementSize h.2) :
    headersLen (headerTable (done ++ rest)) done.length rest.length =
      .ok (rest.flatMap Outgoing.headerLine).length := by
  -- `done` grows by the row that was counted, so that the table stays the same
  induction rest generalizing done with
  | nil => rfl
  | cons h rest ih =>
    have hlt : done.length < maxHeaders := by
      simp only [List.length_append, List.length_cons] at hle
      omega
    have hget : headerTable (done ++ h :: rest) ⟨done.length, hlt⟩ =
        ⟨.ofBytes _ h.1, .ofBytes _ h.2⟩ := headerTable_of_getElem? (by simp)
    have htext := htexts h (List.mem_cons_self ..)
    have hrest := ih (done ++ [h]) (by simpa using hle)
      fun h' hh' => htexts h' (List.mem_cons_of_mem _ hh')
    rw [List.append_assoc, List.singleton_append, List.length_append, List.length_singleton] at hrest
    simp only [List.length_cons, headersLen, dif_pos hlt, hget, strlen_ofBytes htext.1,
      strlen_ofBytes htext.2, hrest, bind, Except.bind, List.flatMap_cons, List.length_append,
      Outgoing.headerLine, crlf, List.length_nil, Except.ok.injEq]
    omega

section Block

variable {n : Nat} {pre : Bytes}

theorem extend_text {t : Bytes} (h : IsText n (pre ++ t)) :
    (CharArray.ofBytes n pre).extend t = .ok (CharArray.ofBytes n (pre ++ t)) := by
  have hlen := h.1
  rw [List.length_append] at hlen
  exact CharArray.extend_ofBytes (fun c hc => h.2 c (List.mem_append_left _ hc)) (by omega) hlen.le

theorem extendStr_text {k : Nat} {t : Bytes} (ht : IsText k t) (h : IsText n (pre ++ t)) :
    extendStr (CharArray.ofBytes n pre) (CharArray.ofBytes k t) =
      .ok (CharArray.ofBytes n (pre ++ t)) := by
  simp only [extendStr, strlen_ofBytes ht, bind, Except.bind, CharArray.take_ofBytes ht.1.le,
    extend_text h]

theorem extendCrlf_text (h : IsText n (pre ++ crlf)) :
    extendCrlf (CharArray.ofBytes n pre) = .ok (CharArray.ofBytes n (pre ++ crlf)) := by
  have hsplit : pre ++ crlf = pre ++ [13] ++ [10] := by simp [crlf]
  rw [hsplit] at h ⊢
  simp only [extendCrlf, extend_text h.of_append, extend_text h, bind, Except.bind]

/-- The loop over the headers appends their lines. -/
theorem appendHeaders_eq (done rest : List (Bytes × Bytes))
    (hle : (done ++ rest).length ≤ maxHeaders)
    (htexts : ∀ h ∈ rest, IsText maxElementSize h.1 ∧ IsText maxElementSize h.2)
    (h : IsText n (pre ++ rest.flatMap Outgoing.headerLine)) :
    appendHeaders (CharArray.ofBytes n pre) (headerTable (done ++ rest)) done.length rest.length =
      .ok (CharArray.ofBytes n (pre ++ rest.flatMap Outgoing.headerLine)) := by
  induction rest generalizing done pre with
  | nil => simp [appendHeaders]
  | cons x rest ih =>
    have hlt : done.length < maxHeaders := by
      simp only [List.length_append, List.length_cons] at hle
      omega
    have hget : headerTable (done ++ x :: rest) ⟨done.length, hlt⟩ =
        ⟨.ofBytes _ x.1, .ofBytes _ x.2⟩ := headerTable_of_getElem? (by simp)
    have htext := htexts x (List.mem_cons_self ..)
    -- the line in the order its parts are appended
    have hline : pre ++ (x :: rest).flatMap Outgoing.headerLine =
        pre ++ x.1 ++ [58] ++ x.2 ++ crlf ++ rest.flatMap Outgoing.headerLine := by
      simp [Outgoing.headerLine]
    rw [hline] at h ⊢
    -- each part fits, since the whole line does
    have hcrlf := h.of_append
    have hvalue := hcrlf.of_append
    have hcolon := hvalue.of_append
    have hrest := ih (done ++ [x]) (by simpa using hle)
      (fun h' hh' => htexts h' (List.mem_cons_of_mem _ hh')) h
    have hdone : done ++ [x] ++ rest = done ++ x :: rest := by simp
    have hlength : (done ++ [x]).length = done.length + 1 := by simp
    rw [hdone, hlength] at hrest
    simp only [List.length_cons, appendHeaders, dif_pos hlt, hget, extendStr_text htext.1
      hcolon.of_append, extend_text hcolon, extendStr_text htext.2 hvalue, extendCrlf_text hcrlf, hrest,
      bind, Except.bind]

end Block

namespace Outgoing

variable {o : Outgoing}

theorem Fits.ne_zero_of_mem_head (h : o.Fits) {c : UInt8} (hc : c ∈ o.head) : c ≠ 0 := by
  simp only [head, List.mem_append, List.mem_flatMap] at hc
  rcases hc with ((hc | hc) | ⟨x, hx, hc⟩) | hc
  · exact h.startLine.2 c hc
  · simp only [crlf, List.mem_cons, List.not_mem_nil, or_false] at hc
    rcases hc with rfl | rfl <;> decide
  · simp only [headerLine, crlf, List.mem_append, List.mem_cons, List.not_mem_nil, or_false] at hc
    rcases hc with (hc | rfl | hc) | rfl | rfl
    · exact (h.headers x hx).1.2 c hc
    · decide
    · exact (h.headers x hx).2.2 c hc
    · decide
    · decide
  · simp only [crlf, List.mem_cons, List.not_mem_nil, or_false] at hc
    rcases hc with rfl | rfl <;> decide

/-- The length that is computed first. -/
theorem length_head (o : Outgoing) :
    o.head.length = o.startLine.length + 2 + ((o.headers.flatMap headerLine).length + 2) := by
  simp only [head, crlf, List.length_append, List.length_cons, List.length_nil]
  omega

end Outgoing

section Message

variable {type : HttpParserType} {m : HttpMessage} {o : Outgoing}

theorem Outgoing.HeldBy.numHeaders_toNat (h : o.HeldBy type m) :
    m.numHeaders.toNat = o.headers.length := by rw [h.numHeaders, Int.toNat_natCast]

/-- The parts stand one behind the other in the block. -/
theorem fillRaw_eq (hfits : o.Fits) (hheld : o.HeldBy type m) {n : Nat} (hn : n = o.text.length + 3) :
    fillRaw n o.startLine m = .ok (CharArray.ofBytes n (o.text ++ crlf)) := by
  have htext : o.text.length = o.head.length + o.body.length := List.length_append
  have hhead : IsText n o.head := ⟨by omega, fun c hc => hfits.ne_zero_of_mem_head hc⟩
  have hlines : IsText n (o.startLine ++ crlf ++ o.headers.flatMap Outgoing.headerLine) :=
    hhead.of_append
  -- the parts in the order of the source, each behind what is there already
  have hline := CharArray.store_ofBytes (n := n) (s := []) (t := o.startLine) (by
    have hlt := hlines.of_append.of_append.1
    simp only [List.length_nil]
    omega)
  rw [CharArray.ofBytes_nil, List.nil_append, List.length_nil] at hline
  have hcrlf := extendCrlf_text hlines.of_append
  have hheaders := appendHeaders_eq [] o.headers hfits.headers_le hfits.headers hlines
  rw [List.nil_append, List.length_nil] at hheaders
  have hblank := extendCrlf_text hhead
  -- the body may hold NULs, but the text before it does not, so `strlen` still finds its end
  have hload : loadBody m o.body.length = .ok o.body := by
    rw [loadBody, if_pos hfits.body, hheld.body, CharArray.take_ofBytes hfits.body]
  have hbody : (CharArray.ofBytes n (o.startLine ++ crlf ++
      o.headers.flatMap Outgoing.headerLine ++ crlf)).extend o.body =
      .ok (CharArray.ofBytes n o.text) := by
    change (CharArray.ofBytes n o.head).extend o.body = _
    exact CharArray.extend_ofBytes hhead.2 hhead.1 (by omega)
  -- the two indices counted from the end of the block
  have hthree : n - 3 = o.text.length := by omega
  have htwo : n - 2 = (o.text ++ [13]).length := by
    simp only [List.length_append, List.length_singleton]
    omega
  have hcr := CharArray.store_ofBytes (n := n) (s := o.text) (t := [13]) (by
    simp only [List.length_singleton]
    omega)
  have hlf := CharArray.store_ofBytes (n := n) (s := o.text ++ [13]) (t := [10]) (by
    simp only [List.length_append, List.length_singleton]
    omega)
  simp only [fillRaw, hline, hcrlf, hheld.headers, hheld.numHeaders_toNat, hheaders, hblank,
    hheld.bodySize, hload, hbody, hthree, hcr, htwo, hlf, bind, Except.bind]
  simp [crlf]

/-- **The text of a message**: `message_to_string` copies the message, a line end and a NUL, as
far as they fit. -/
theorem messageToString_eq (hfits : o.Fits) (hheld : o.HeldBy type m) (len : Nat) :
    messageToString type m len = .ok ((o.text ++ crlf ++ [0]).take len) := by
  have hlens := headersLen_eq [] o.headers hfits.headers_le hfits.headers
  rw [List.nil_append, List.length_nil] at hlens
  have htext : o.text.length = o.head.length + o.body.length := List.length_append
  have htotal : o.startLine.length + 2 + ((o.headers.flatMap Outgoing.headerLine).length + 2) +
      (m.bodySize + 2) + 1 = o.text.length + 3 := by
    have hhead := o.length_head
    rw [hheld.bodySize]
    omega
  have hfill := fillRaw_eq hfits hheld htotal
  simp only [messageToString, hheld.startLine, strlen_ofBytes hfits.startLine, hheld.headers,
    hheld.numHeaders_toNat, hlens, CharArray.take_ofBytes hfits.startLine.1.le, hfill, bind,
    Except.bind, Except.ok.injEq]
  rw [htotal]
  -- the last byte of the block was never written
  have hblock : (CharArray.ofBytes (o.text.length + 3) (o.text ++ crlf)).bytes =
      o.text ++ crlf ++ [0] := by
    have hlen : (o.text ++ crlf).length = o.text.length + 2 := List.length_append
    rw [CharArray.bytes_ofBytes (by omega), hlen]
    have hpad : o.text.length + 3 - (o.text.length + 2) = 1 := by omega
    rw [hpad]
    rfl
  rw [hblock]
  split
  · rfl
  · rw [List.take_of_length_le, List.take_of_length_le]
    · simp [crlf]
      omega
    · simp [crlf]

end Message

end Sails.Net
