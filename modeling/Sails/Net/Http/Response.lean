import Sails.Net.Http.Serialize

/-!
# `HttpResponse` and the bytes `HttpServer::handle` sends

- `setHeader`, `setBody`, `construct`, `handle`: translated from `http.cc` and `http_server.cc`
- `putHeader`: what `SetHeader` does to the list of names and values
- `Response`: a response as lists of bytes, with the calls that build it
- `handle_eq`: the bytes sent are the whole buffer, whatever the length of the text
- `handle_framed_iff`: they are the message itself exactly when it fills the buffer

The text `ctime_r` stores is a parameter, as are the calls a processor makes.
-/

namespace Sails.Net

open TransitionRun
open CMemory
open Sails.Base

/-! ## The source -/

/-- The loop of `SetHeader` over `remaining` headers from `i` on: each of this name is given the
value. The second result says whether there was one. -/
def replaceHeader (key value : Bytes) (m : HttpMessage) (i : Nat) :
    Nat → Except Fault (HttpMessage × Bool)
  | 0 => .ok (m, false)
  | remaining + 1 =>
    if h : i < maxHeaders then
      if SameName (m.headers ⟨i, h⟩).name.str key then do
        let text ← (CharArray.zero _).snprintf value
        let headers := Function.update m.headers ⟨i, h⟩ { m.headers ⟨i, h⟩ with value := text }
        let (m', _) ← replaceHeader key value { m with headers := headers } (i + 1) remaining
        .ok (m', true)
      else replaceHeader key value m (i + 1) remaining
    else .error .outOfBounds

/-- The branch of `SetHeader` for a name not there yet. -/
def addHeader (m : HttpMessage) (key value : Bytes) : Except Fault HttpMessage := do
  let numHeaders := m.numHeaders + 1
  let i ← headerAt (numHeaders - 1)
  let name ← (m.headers i).name.snprintf key
  let text ← (m.headers i).value.snprintf value
  .ok { m with numHeaders := numHeaders, headers := Function.update m.headers i ⟨name, text⟩ }

/-- `SetHeader` with the texts of two C strings; `none` is a null pointer. -/
def setHeader (m : HttpMessage) (key value : Option Bytes) : Except Fault HttpMessage :=
  match key, value with
  | some key, some value =>
    if key.length > 0 then do
      let (m, exist) ← replaceHeader key value m 0 m.numHeaders.toNat
      if exist then .ok m else addHeader m key value
    else .ok m
  | _, _ => .ok m

/-- `SetBody(body, len)`, with its result; `body` is the object the pointer points into. -/
def setBody (m : HttpMessage) (body : Bytes) (len : Int) : Except Fault (HttpMessage × Int) :=
  if len > maxBodySize then .ok (m, 1)
  else do
    -- `body_size` is a `size_t`
    let bodySize := (len % 2 ^ 64).toNat
    let source ← if bodySize ≤ body.length then .ok (body.take bodySize) else .error .outOfBounds
    let stored ← (CharArray.zero maxBodySize).store 0 source
    let bodySizeStr ← (CharArray.zero 11).snprintf (decimal bodySize)
    let m ← setHeader { m with body := stored, bodySize := bodySize } (some (ascii "Content-Length"))
      (some bodySizeStr.str)
    .ok (m, 0)

/-- The table of `SetDefaultHeader`; the rows not given are empty. -/
def defaultHeaders : List (Bytes × Bytes) :=
  [(ascii "Server", ascii " sails "),
    (ascii "Date", []),
    (ascii "Content-Type", ascii "text/html;charset=UTF-8"),
    (ascii "Expires", []),
    (ascii "Connection", ascii "keep-alive"),
    (ascii "Cache-Control", ascii "public, max-age=0"),
    (ascii "Content-Length", ascii "0")] ++ List.replicate 6 ([], [])

/-- `time_str` without its last character, the line end. -/
def cutLineEnd (timeStr : Bytes) : Except Fault Bytes :=
  if timeStr = [] then .error .outOfBounds else .ok timeStr.dropLast

/-- Several calls of `SetHeader`. -/
def setHeaders (m : HttpMessage) (rows : List (Bytes × Bytes)) : Except Fault HttpMessage :=
  rows.foldlM (fun m h => setHeader m (some h.1) (some h.2)) m

/-- `SetDefaultHeader`, where `ctime_r` stores `ctime`. -/
def setDefaultHeader (ctime : Bytes) (m : HttpMessage) : Except Fault HttpMessage := do
  let m ← setHeaders { m with httpMajor := 1, httpMinor := 1, statusCode := 200 } defaultHeaders
  let timeStr ← cutLineEnd ctime
  let m ← setHeader m (some (ascii "Date")) (some timeStr)
  setHeader m (some (ascii "Expires")) (some timeStr)

/-- `HttpResponse::HttpResponse()`. -/
def construct (ctime : Bytes) : Except Fault HttpMessage := setDefaultHeader ctime .init

/-- The size of `response_str`. -/
def sendBufferSize : Nat := maxBodySize * 2

/-- `HttpServer::handle`: the bytes it passes to `send`, when `process` builds the response. -/
def handle (ctime : Bytes) (process : HttpMessage → Except Fault HttpMessage) :
    Except Fault Bytes := do
  let response ← construct ctime
  let response ← process response
  let text ← messageToString .response response sendBufferSize
  let responseStr ← (CharArray.zero sendBufferSize).store 0 text
  .ok responseStr.bytes

/-! ## Headers as a list -/

/-- Give a name its value: every row of the name is changed, or a row is added. -/
def putHeader (hs : List (Bytes × Bytes)) (key value : Bytes) : List (Bytes × Bytes) :=
  if key = [] then hs
  else if hs.any fun h => SameName h.1 key then
    hs.map fun h => if SameName h.1 key then (h.1, value) else h
  else hs ++ [(key, value)]

/-- The rows fit the arrays. -/
structure RowsFit (hs : List (Bytes × Bytes)) : Prop where
  length_le : hs.length ≤ maxHeaders
  texts : ∀ h ∈ hs, IsText maxElementSize h.1 ∧ IsText maxElementSize h.2

/-- The record with these headers. -/
def withHeaders (m : HttpMessage) (hs : List (Bytes × Bytes)) : HttpMessage :=
  { m with numHeaders := hs.length, headers := headerTable hs }

theorem length_le_putHeader (hs : List (Bytes × Bytes)) (key value : Bytes) :
    hs.length ≤ (putHeader hs key value).length := by
  unfold putHeader
  split
  · rfl
  · split <;> simp

theorem RowsFit.putHeader {hs : List (Bytes × Bytes)} (h : RowsFit hs) {key value : Bytes}
    (hkey : IsText maxElementSize key) (hvalue : IsText maxElementSize value)
    (hle : (putHeader hs key value).length ≤ maxHeaders) : RowsFit (putHeader hs key value) := by
  refine ⟨hle, fun x hx => ?_⟩
  unfold Net.putHeader at hx
  split at hx
  · exact h.texts x hx
  · split at hx
    · obtain ⟨y, hy, rfl⟩ := List.mem_map.mp hx
      split
      · exact ⟨(h.texts y hy).1, hvalue⟩
      · exact h.texts y hy
    · rcases List.mem_append.mp hx with hx | hx
      · exact h.texts x hx
      · rw [List.mem_singleton.mp hx]
        exact ⟨hkey, hvalue⟩

theorem snprintf_text {n : Nat} {s : Bytes} (h : IsText n s) :
    (CharArray.zero n).snprintf s = .ok (.ofBytes n s) := CharArray.snprintf_zero h.1

/-- The loop changes the rows of the name and no others. -/
theorem replaceHeader_eq (m : HttpMessage) (key : Bytes) {value : Bytes}
    (done rest : List (Bytes × Bytes))
    (hfit : RowsFit (done ++ rest)) (hvalue : IsText maxElementSize value) :
    replaceHeader key value (withHeaders m (done ++ rest)) done.length rest.length =
      .ok (withHeaders m (done ++ rest.map fun h => if SameName h.1 key then (h.1, value) else h),
        rest.any fun h => SameName h.1 key) := by
  induction rest generalizing done with
  | nil => simp [replaceHeader]
  | cons x rest ih =>
    have hlt : done.length < maxHeaders := by
      have hle := hfit.length_le
      simp only [List.length_append, List.length_cons] at hle
      omega
    have hget : (withHeaders m (done ++ x :: rest)).headers ⟨done.length, hlt⟩ =
        ⟨.ofBytes _ x.1, .ofBytes _ x.2⟩ := headerTable_of_getElem? (by simp)
    have htext := hfit.texts x (by simp)
    have hname : (CharArray.ofBytes maxElementSize x.1).str = x.1 :=
      CharArray.str_ofBytes htext.1.1 htext.1.2
    by_cases hsame : SameName x.1 key
    -- the row is rewritten and the loop goes on behind it
    · have hfit' : RowsFit (done ++ [(x.1, value)] ++ rest) := by
        refine ⟨by simpa using hfit.length_le, fun y hy => ?_⟩
        simp only [List.mem_append, List.mem_singleton] at hy
        rcases hy with (hy | rfl) | hy
        · exact hfit.texts y (by simp [hy])
        · exact ⟨htext.1, hvalue⟩
        · exact hfit.texts y (by simp [hy])
      have htable := update_headerTable_set (done ++ x :: rest) ⟨done.length, hlt⟩ (x.1, value)
        (by simp)
      have hset : (done ++ x :: rest).set done.length (x.1, value) = done ++ [(x.1, value)] ++ rest := by
        rw [List.set_append_right _ _ le_rfl, Nat.sub_self, List.append_assoc]
        rfl
      have hwrite : { withHeaders m (done ++ x :: rest) with
          headers := Function.update (withHeaders m (done ++ x :: rest)).headers ⟨done.length, hlt⟩
            ⟨.ofBytes _ x.1, .ofBytes _ value⟩ } = withHeaders m (done ++ [(x.1, value)] ++ rest) := by
        have hlength : (done ++ x :: rest).length = (done ++ [(x.1, value)] ++ rest).length := by simp
        simp only [withHeaders, htable, hset, hlength]
      have hrest := ih (done ++ [(x.1, value)]) hfit'
      rw [List.length_append, List.length_singleton] at hrest
      simp only [List.length_cons, replaceHeader, dif_pos hlt, hget, hname, if_pos hsame,
        snprintf_text hvalue, hwrite, hrest, bind, Except.bind]
      simp [hsame]
    · have hrest := ih (done ++ [x]) (by simpa using hfit)
      have hdone : done ++ [x] ++ rest = done ++ x :: rest := by simp
      rw [hdone, List.length_append, List.length_singleton] at hrest
      simp only [List.length_cons, replaceHeader, dif_pos hlt, hget, hname, if_neg hsame, hrest]
      simp [hsame]

theorem addHeader_eq {m : HttpMessage} {key value : Bytes} {hs : List (Bytes × Bytes)}
    (hlt : hs.length < maxHeaders) (hkey : IsText maxElementSize key)
    (hvalue : IsText maxElementSize value) :
    addHeader (withHeaders m hs) key value = .ok (withHeaders m (hs ++ [(key, value)])) := by
  have hindex : (hs.length : Int) + 1 - 1 = hs.length := by omega
  -- the place behind the last row is still zeroed
  have hplace : headerTable hs ⟨hs.length, hlt⟩ = ⟨.zero _, .zero _⟩ := by
    rw [← headerTable_concat_nil, headerTable_last, CharArray.ofBytes_nil]
  have htable := update_headerTable hs ([], []) (key, value) hlt
  rw [headerTable_concat_nil] at htable
  simp only [addHeader, withHeaders, hindex, headerAt_natCast hlt, hplace, snprintf_text hkey,
    snprintf_text hvalue, htable, bind, Except.bind]
  simp

/-- Without a row of the name no row is changed. -/
theorem map_eq_self_of_not_any {hs : List (Bytes × Bytes)} {key : Bytes} (value : Bytes)
    (hany : ¬ (hs.any fun h => SameName h.1 key) = true) :
    (hs.map fun h => if SameName h.1 key then (h.1, value) else h) = hs := by
  refine (List.map_congr_left fun h hh => ?_).trans (List.map_id hs)
  rw [if_neg fun hsame => hany (List.any_eq_true.mpr ⟨h, hh, by simpa using hsame⟩), id]

/-- **`SetHeader`** on a record that holds a list of rows. -/
theorem setHeader_eq {m : HttpMessage} {key value : Bytes} {hs : List (Bytes × Bytes)}
    (hfit : RowsFit hs) (hkey : IsText maxElementSize key) (hvalue : IsText maxElementSize value)
    (hle : (putHeader hs key value).length ≤ maxHeaders) :
    setHeader (withHeaders m hs) (some key) (some value) =
      .ok (withHeaders m (putHeader hs key value)) := by
  by_cases hempty : key = []
  · simp [setHeader, putHeader, hempty]
  · have hpos : key.length > 0 := List.length_pos_iff.mpr hempty
    have hloop := replaceHeader_eq m key [] hs hfit hvalue
    have hcount : (withHeaders m hs).numHeaders.toNat = hs.length := Int.toNat_natCast _
    rw [List.nil_append, List.nil_append, List.length_nil] at hloop
    rw [putHeader, if_neg hempty] at hle ⊢
    by_cases hany : (hs.any fun h => SameName h.1 key) = true
    · simp only [setHeader, if_pos hpos, hcount, hloop, hany, if_true, bind, Except.bind]
    -- no row was changed, and one is added
    · have hnone := map_eq_self_of_not_any value hany
      rw [if_neg hany, List.length_append, List.length_singleton] at hle
      simp only [setHeader, if_pos hpos, hcount, hloop, hnone, hany, bind, Except.bind,
        Bool.false_eq_true, if_false, addHeader_eq (Nat.lt_of_succ_le hle) hkey hvalue]

/-- The rows after several calls. -/
def putHeaders (hs rows : List (Bytes × Bytes)) : List (Bytes × Bytes) :=
  rows.foldl (fun hs h => putHeader hs h.1 h.2) hs

theorem length_le_putHeaders (hs rows : List (Bytes × Bytes)) :
    hs.length ≤ (putHeaders hs rows).length := by
  induction rows generalizing hs with
  | nil => rfl
  | cons h rows ih => exact (length_le_putHeader hs h.1 h.2).trans (ih _)

theorem setHeaders_eq {m : HttpMessage} {hs rows : List (Bytes × Bytes)} (hfit : RowsFit hs)
    (hrows : ∀ h ∈ rows, IsText maxElementSize h.1 ∧ IsText maxElementSize h.2)
    (hle : (putHeaders hs rows).length ≤ maxHeaders) :
    setHeaders (withHeaders m hs) rows = .ok (withHeaders m (putHeaders hs rows)) ∧
      RowsFit (putHeaders hs rows) := by
  induction rows generalizing hs with
  | nil => exact ⟨rfl, hfit⟩
  | cons h rows ih =>
    have htext := hrows h (List.mem_cons_self ..)
    have hfirst : (putHeader hs h.1 h.2).length ≤ maxHeaders := (length_le_putHeaders _ rows).trans hle
    have hset := setHeader_eq (m := m) hfit htext.1 htext.2 hfirst
    obtain ⟨hrest, hfit'⟩ := ih (hfit.putHeader htext.1 htext.2 hfirst)
      (fun h' hh' => hrows h' (List.mem_cons_of_mem _ hh')) hle
    refine ⟨?_, hfit'⟩
    rw [setHeaders, List.foldlM_cons, hset]
    exact hrest

/-! ## Responses as lists of bytes -/

/-- A response under construction. -/
structure Response where
  statusCode : Nat
  headers : List (Bytes × Bytes)
  body : Bytes

/-- A call a processor makes besides `SetBody`. -/
inductive HeadCall where
  | setResponseStatus (statusCode : Nat)
  | setHeader (key value : Bytes)

/-- The call on the record. -/
def HeadCall.perform (m : HttpMessage) : HeadCall → Except Fault HttpMessage
  | setResponseStatus statusCode => .ok { m with statusCode := statusCode }
  | setHeader key value => Net.setHeader m (some key) (some value)

/-- The call on the lists. -/
def HeadCall.apply (r : Response) : HeadCall → Response
  | setResponseStatus statusCode => { r with statusCode := statusCode }
  | setHeader key value => { r with headers := putHeader r.headers key value }

/-- The status is a listed one; texts fit their arrays. -/
def HeadCall.Allowed : HeadCall → Prop
  | setResponseStatus statusCode => (statusCodeToReasonPhrase statusCode).isSome
  | setHeader key value => IsText maxElementSize key ∧ IsText maxElementSize value

/-- A processor that makes these calls, with one of `SetBody` among them. -/
def processor (before : List HeadCall) (body : Bytes) (after : List HeadCall) (m : HttpMessage) :
    Except Fault HttpMessage := do
  let m ← before.foldlM HeadCall.perform m
  let (m, _) ← setBody m body body.length
  after.foldlM HeadCall.perform m

namespace Response

/-- The rows `SetDefaultHeader` sets, the last two to the local time. -/
def defaultRows (ctime : Bytes) : List (Bytes × Bytes) :=
  defaultHeaders ++ [(ascii "Date", ctime.dropLast), (ascii "Expires", ctime.dropLast)]

/-- The response the constructor makes. -/
def initial (ctime : Bytes) : Response := ⟨200, putHeaders [] (defaultRows ctime), []⟩

/-- `SetBody`. -/
def withBody (r : Response) (body : Bytes) : Response :=
  { r with
    headers := putHeader r.headers (ascii "Content-Length") (decimal body.length)
    body := body }

/-- The response a processor leaves. -/
def built (ctime : Bytes) (before : List HeadCall) (body : Bytes) (after : List HeadCall) :
    Response :=
  after.foldl HeadCall.apply ((before.foldl HeadCall.apply (initial ctime)).withBody body)

/-- The message that is to be sent. -/
def outgoing (r : Response) : Outgoing where
  startLine := responseLine 1 1 r.statusCode ((statusCodeToReasonPhrase r.statusCode).getD [])
  headers := r.headers
  body := r.body

/-- The record that holds the response. -/
def record (r : Response) : HttpMessage :=
  withHeaders { HttpMessage.init with
    statusCode := r.statusCode, body := .ofBytes _ r.body, bodySize := r.body.length } r.headers

/-- The response respects the sizes of the record, and its status is a listed one. -/
structure Fits (r : Response) : Prop where
  rows : RowsFit r.headers
  body : r.body.length ≤ maxBodySize
  status : (statusCodeToReasonPhrase r.statusCode).isSome

variable {r : Response}

theorem Fits.outgoing (h : r.Fits) : r.outgoing.Fits where
  startLine := by
    obtain ⟨phrase, hphrase⟩ := Option.isSome_iff_exists.mp h.status
    -- a finite check of the table, then the row of this status
    have htable : ∀ p ∈ kResponseStatus, IsText statusLineSize (responseLine 1 1 p.1 (ascii p.2)) := by
      decide +kernel
    rw [statusCodeToReasonPhrase] at hphrase
    obtain ⟨s, hs, rfl⟩ := Option.map_eq_some_iff.mp hphrase
    have hmem : (r.statusCode, s) ∈ kResponseStatus := by
      obtain ⟨l₁, l₂, hsplit, -⟩ := List.lookup_eq_some_iff.mp hs
      rw [hsplit]
      simp
    have hline := htable (r.statusCode, s) hmem
    rw [Response.outgoing, statusCodeToReasonPhrase, hs, Option.map_some, Option.getD_some]
    exact hline
  headers_le := h.rows.length_le
  headers := h.rows.texts
  body := h.body

theorem Fits.heldBy (h : r.Fits) : r.outgoing.HeldBy .response r.record where
  startLine := by
    obtain ⟨phrase, hphrase⟩ := Option.isSome_iff_exists.mp h.status
    have hcode : r.record.statusCode = r.statusCode := rfl
    have htext := h.outgoing.startLine
    rw [Response.outgoing, hphrase] at htext ⊢
    rw [statusLine, hcode]
    simp only [hphrase]
    exact snprintf_text htext
  numHeaders := rfl
  headers := rfl
  body := rfl
  bodySize := rfl

/-! ## Building a response -/

/-- A call other than `SetBody`, on the record and on the lists. -/
theorem Fits.perform (h : r.Fits) {c : HeadCall} (hc : c.Allowed)
    (hle : (c.apply r).headers.length ≤ maxHeaders) :
    c.perform r.record = .ok (c.apply r).record ∧ (c.apply r).Fits := by
  cases c with
  | setResponseStatus statusCode => exact ⟨rfl, h.rows, h.body, hc⟩
  | setHeader key value =>
    exact ⟨setHeader_eq h.rows hc.1 hc.2 hle, h.rows.putHeader hc.1 hc.2 hle, h.body, h.status⟩

theorem length_le_apply (r : Response) (c : HeadCall) :
    r.headers.length ≤ (c.apply r).headers.length := by
  cases c with
  | setResponseStatus => exact le_rfl
  | setHeader key value => exact length_le_putHeader ..

theorem Fits.performs (h : r.Fits) {cs : List HeadCall} (hcs : ∀ c ∈ cs, c.Allowed)
    (hle : (cs.foldl HeadCall.apply r).headers.length ≤ maxHeaders) :
    cs.foldlM HeadCall.perform r.record = .ok (cs.foldl HeadCall.apply r).record ∧
      (cs.foldl HeadCall.apply r).Fits :=
  foldlM_represents length_le_apply (fun _ c hc hfits hlen => hfits.perform (hcs c hc) hlen) h hle

theorem isText_decimal {n : Nat} (h : n ≤ maxBodySize) : IsText 11 (decimal n) := by
  have hlt : n < 10 ^ 10 := h.trans_lt (by decide)
  exact ⟨Nat.lt_succ_of_le (length_decimal_le (by decide) hlt), fun c hc => ne_zero_of_mem_decimal hc⟩

theorem isText_contentLength : IsText maxElementSize (ascii "Content-Length") := by decide

/-- `SetBody` with a body that fits. -/
theorem Fits.setBody (h : r.Fits) {body : Bytes} (hbody : body.length ≤ maxBodySize)
    (hle : (r.withBody body).headers.length ≤ maxHeaders) :
    Net.setBody r.record body body.length = .ok ((r.withBody body).record, 0) ∧
      (r.withBody body).Fits := by
  have hdecimal := isText_decimal hbody
  have hvalue : IsText maxElementSize (decimal body.length) :=
    ⟨hdecimal.1.trans (by decide), hdecimal.2⟩
  -- the length is far from 2^64, so it survives the conversion
  have hsize : ((body.length : Int) % 2 ^ 64).toNat = body.length := by
    have hmax : maxBodySize = 20480 := rfl
    omega
  have hsmall : ¬ (body.length : Int) > maxBodySize := by omega
  have hstore := CharArray.store_ofBytes (n := maxBodySize) (s := []) (t := body) (by simpa using hbody)
  rw [CharArray.ofBytes_nil, List.nil_append, List.length_nil] at hstore
  have hset := setHeader_eq (m := { r.record with
    body := .ofBytes _ body, bodySize := body.length }) h.rows isText_contentLength hvalue hle
  refine ⟨?_, h.rows.putHeader isText_contentLength hvalue hle, hbody, h.status⟩
  simp only [Net.setBody, if_neg hsmall, hsize, if_pos le_rfl, List.take_length, hstore,
    snprintf_text hdecimal, CharArray.str_ofBytes hdecimal.1 hdecimal.2, bind, Except.bind]
  exact congrArg (· >>= fun m => .ok (m, (0 : Int))) hset

/-- The constructor. -/
theorem construct_eq {ctime : Bytes} (hctime : IsText 40 ctime) (hne : ctime ≠ [])
    (hle : (initial ctime).headers.length ≤ maxHeaders) :
    construct ctime = .ok (initial ctime).record ∧ (initial ctime).Fits := by
  have htime : IsText maxElementSize ctime.dropLast := by
    refine ⟨?_, fun c hc => hctime.2 c ((List.dropLast_subset _) hc)⟩
    have hlt := hctime.1
    have hmax : maxElementSize = 2048 := rfl
    rw [List.length_dropLast]
    omega
  have htable : ∀ h ∈ defaultHeaders, IsText maxElementSize h.1 ∧ IsText maxElementSize h.2 := by
    decide +kernel
  have hdate : IsText maxElementSize (ascii "Date") := by decide
  have hexpires : IsText maxElementSize (ascii "Expires") := by decide
  have hrows : ∀ h ∈ defaultRows ctime, IsText maxElementSize h.1 ∧ IsText maxElementSize h.2 := by
    intro h hh
    rcases List.mem_append.mp hh with hh | hh
    · exact htable h hh
    · simp only [List.mem_cons, List.not_mem_nil, or_false] at hh
      rcases hh with rfl | rfl
      · exact ⟨hdate, htime⟩
      · exact ⟨hexpires, htime⟩
  have hempty : RowsFit [] := ⟨Nat.zero_le _, by simp⟩
  obtain ⟨hset, hfit⟩ := setHeaders_eq
    (m := { HttpMessage.init with httpMajor := 1, httpMinor := 1, statusCode := 200 }) hempty hrows hle
  have hrecord : (initial ctime).record = withHeaders
      { HttpMessage.init with httpMajor := 1, httpMinor := 1, statusCode := 200 }
      (putHeaders [] (defaultRows ctime)) := by
    simp only [record, initial, CharArray.ofBytes_nil]
    rfl
  -- the cleared record holds the empty list
  have hstart : ({ HttpMessage.init with httpMajor := 1, httpMinor := 1, statusCode := 200 } :
      HttpMessage) = withHeaders
        { HttpMessage.init with httpMajor := 1, httpMinor := 1, statusCode := 200 } [] := by
    rw [withHeaders, headerTable_nil]
    rfl
  -- the fixed rows and the two dated ones are one sequence of calls
  have hsplit : construct ctime = setHeaders
      { HttpMessage.init with httpMajor := 1, httpMinor := 1, statusCode := 200 }
      (defaultRows ctime) := by
    rw [construct, setDefaultHeader, setHeaders, setHeaders, defaultRows, List.foldlM_append]
    have hcut : cutLineEnd ctime = pure ctime.dropLast := by
      rw [cutLineEnd, if_neg hne]
      rfl
    simp only [hcut, pure_bind, List.foldlM_cons, List.foldlM_nil, bind_pure]
  have hstatus : (statusCodeToReasonPhrase 200).isSome := by decide
  refine ⟨?_, hfit, Nat.zero_le _, hstatus⟩
  rw [hsplit, hstart, hset, hrecord]

/-- The limits of the record and of the buffer, for a response and the calls that build it. -/
structure Limits (ctime : Bytes) (before : List HeadCall) (body : Bytes) (after : List HeadCall) :
    Prop where
  time : IsText 40 ctime ∧ ctime ≠ []
  calls : ∀ c ∈ before ++ after, c.Allowed
  body_le : body.length ≤ maxBodySize
  headers_le : (built ctime before body after).headers.length ≤ maxHeaders
  /-- the header that `SetBody` sets is not set again -/
  contentLength : ∀ key value, .setHeader key value ∈ after →
    ¬ SameName key (ascii "Content-Length")
  /-- the message fits the buffer it is sent from -/
  text : (built ctime before body after).outgoing.text.length ≤ sendBufferSize

section Built

variable {ctime body : Bytes} {before after : List HeadCall}

theorem processor_eq (h : Limits ctime before body after) :
    (construct ctime >>= processor before body after) = .ok (built ctime before body after).record ∧
      (built ctime before body after).Fits := by
  -- rows are never removed, so the last count bounds the earlier ones
  have hbody := (le_foldl length_le_apply after _).trans h.headers_le
  have hbefore : (before.foldl HeadCall.apply (initial ctime)).headers.length ≤ maxHeaders :=
    (length_le_putHeader _ (ascii "Content-Length") (decimal body.length)).trans hbody
  have hinitial := (le_foldl length_le_apply before _).trans hbefore
  obtain ⟨hnew, hfits⟩ := construct_eq h.time.1 h.time.2 hinitial
  obtain ⟨hfirst, hfits₁⟩ := hfits.performs
    (fun c hc => h.calls c (List.mem_append_left _ hc)) hbefore
  obtain ⟨hset, hfits₂⟩ := hfits₁.setBody h.body_le hbody
  obtain ⟨hlast, hfits₃⟩ := hfits₂.performs
    (fun c hc => h.calls c (List.mem_append_right _ hc)) h.headers_le
  refine ⟨?_, hfits₃⟩
  simp only [hnew, processor, hfirst, hset, bind, Except.bind]
  exact hlast

/-- **What is sent**: the message with a line end behind it, filled up with NULs to the size of
the buffer. -/
theorem handle_eq (h : Limits ctime before body after) :
    handle ctime (processor before body after) =
      .ok (resize ((built ctime before body after).outgoing.text ++ crlf) sendBufferSize) := by
  obtain ⟨hbuilt, hfits⟩ := processor_eq h
  have htext := messageToString_eq hfits.outgoing hfits.heldBy sendBufferSize
  -- only the length of the text matters from here on
  generalize (built ctime before body after).outgoing.text = t at htext ⊢
  have hstore := CharArray.store_ofBytes (n := sendBufferSize) (s := [])
    (t := (t ++ crlf ++ [0]).take sendBufferSize) (by simp)
  rw [CharArray.ofBytes_nil, List.nil_append, List.length_nil] at hstore
  have hresize : resize ((t ++ crlf ++ [0]).take sendBufferSize) sendBufferSize =
      resize (t ++ crlf) sendBufferSize := by
    rw [resize_take, resize_concat_zero]
  cases hnew : construct ctime with
  | error e =>
    rw [hnew] at hbuilt
    cases hbuilt
  | ok m =>
    rw [hnew] at hbuilt
    have hprocess : processor before body after m = .ok (built ctime before body after).record := hbuilt
    simp only [handle, hnew, hprocess, htext, hstore, bind, Except.bind]
    exact congrArg Except.ok hresize

end Built

/-! ## Framing -/

/-- The bytes are the message: the status line, the headers, the blank line and then the body, of
which `Content-Length` gives the number of bytes. -/
structure Framed (r : Response) (queued : Bytes) : Prop where
  message : queued = r.outgoing.head ++ r.body
  contentLength : ∃ h ∈ r.headers, SameName h.1 (ascii "Content-Length") ∧
    h.2 = decimal (queued.length - r.outgoing.head.length)

theorem mem_putHeader (hs : List (Bytes × Bytes)) {key : Bytes} (value : Bytes) (hne : key ≠ []) :
    ∃ h ∈ putHeader hs key value, SameName h.1 key ∧ h.2 = value := by
  rw [putHeader, if_neg hne]
  by_cases hany : (hs.any fun h => SameName h.1 key) = true
  · obtain ⟨h, hh, hsame⟩ := List.any_eq_true.mp hany
    have hsame' : SameName h.1 key := by simpa using hsame
    rw [if_pos hany]
    exact ⟨(h.1, value), List.mem_map.mpr ⟨h, hh, if_pos hsame'⟩, hsame', rfl⟩
  · rw [if_neg hany]
    exact ⟨(key, value), by simp, rfl, rfl⟩

/-- Setting another header keeps a row. -/
theorem mem_putHeader_of_mem {hs : List (Bytes × Bytes)} {h : Bytes × Bytes} (hh : h ∈ hs)
    {key : Bytes} (value : Bytes) (hne : ¬ SameName h.1 key) : h ∈ putHeader hs key value := by
  unfold putHeader
  split
  · exact hh
  · split
    · exact List.mem_map.mpr ⟨h, hh, if_neg hne⟩
    · exact List.mem_append_left _ hh

theorem mem_foldl_apply {r : Response} {cs : List HeadCall} {h : Bytes × Bytes} (hh : h ∈ r.headers)
    (hcs : ∀ key value, .setHeader key value ∈ cs → ¬ SameName h.1 key) :
    h ∈ (cs.foldl HeadCall.apply r).headers := by
  induction cs generalizing r with
  | nil => exact hh
  | cons c cs ih =>
    refine ih ?_ fun key value hmem => hcs key value (List.mem_cons_of_mem _ hmem)
    cases c with
    | setResponseStatus => exact hh
    | setHeader key value =>
      exact mem_putHeader_of_mem hh value (hcs key value (List.mem_cons_self ..))

theorem body_foldl_apply (r : Response) (cs : List HeadCall) :
    (cs.foldl HeadCall.apply r).body = r.body := by
  induction cs generalizing r with
  | nil => rfl
  | cons c cs ih =>
    rw [List.foldl_cons, ih]
    cases c <;> rfl

section Built

variable {ctime body : Bytes} {before after : List HeadCall}

/-- The value `SetBody` wrote is still there when the response is sent. -/
theorem contentLength_built (h : Limits ctime before body after) :
    ∃ x ∈ (built ctime before body after).headers, SameName x.1 (ascii "Content-Length") ∧
      x.2 = decimal body.length := by
  obtain ⟨x, hx, hsame, hvalue⟩ := mem_putHeader
    (before.foldl HeadCall.apply (initial ctime)).headers (decimal body.length)
    (by decide : ascii "Content-Length" ≠ [])
  refine ⟨x, mem_foldl_apply hx fun key value hmem hkey => ?_, hsame, hvalue⟩
  exact h.contentLength key value hmem (hkey.symm.trans hsame)

/-- **Framing of a response.** The bytes `HttpServer::handle` sends are the response exactly when
the response fills the whole send buffer. -/
theorem handle_framed_iff (h : Limits ctime before body after) :
    ∃ queued, handle ctime (processor before body after) = .ok queued ∧
      (Framed (built ctime before body after) queued ↔
        (built ctime before body after).outgoing.text.length = sendBufferSize) := by
  have hbody : (built ctime before body after).body = body := body_foldl_apply _ after
  refine ⟨_, handle_eq h, ?_⟩
  constructor
  · intro hframed
    have hlen := congrArg List.length hframed.message
    rw [length_resize] at hlen
    exact hlen.symm
  · intro hfull
    have hqueued : resize ((built ctime before body after).outgoing.text ++ crlf) sendBufferSize =
        (built ctime before body after).outgoing.text := by
      rw [resize, List.length_append, ← hfull, List.take_left]
      simp
    rw [hqueued]
    refine ⟨rfl, ?_⟩
    obtain ⟨x, hx, hsame, hvalue⟩ := contentLength_built h
    refine ⟨x, hx, hsame, ?_⟩
    -- what follows the head is the body, and `SetBody` wrote its length
    have hcount : (built ctime before body after).outgoing.text.length -
        (built ctime before body after).outgoing.head.length = body.length := by
      rw [Outgoing.text, List.length_append, Nat.add_sub_cancel_left]
      exact congrArg List.length hbody
    rw [hvalue, hcount]

end Built

/-! ## An instance -/

/-- What `ctime_r` stores at the beginning of the epoch. -/
def epoch : Bytes := ascii "Thu Jan  1 00:00:00 1970\n"

/-- A response with the default headers and a body of two bytes. -/
theorem limits_hi : Limits epoch [] (ascii "hi") [] where
  time := by decide
  calls := by simp
  body_le := by decide
  headers_le := by decide +kernel
  contentLength := by simp
  text := by decide +kernel

theorem handle_framed_iff_hi :
    ∃ queued, handle epoch (processor [] (ascii "hi") []) = .ok queued ∧
      (Framed (built epoch [] (ascii "hi") []) queued ↔
        (built epoch [] (ascii "hi") []).outgoing.text.length = sendBufferSize) :=
  handle_framed_iff limits_hi

/-- The two bytes of the body are followed by a line end and NULs up to 40960 bytes. -/
theorem handle_hi_not_framed :
    ¬ ∃ queued, handle epoch (processor [] (ascii "hi") []) = .ok queued ∧
      Framed (built epoch [] (ascii "hi") []) queued := by
  rintro ⟨queued, hok, hframed⟩
  have hqueued := Except.ok.inj (hok.symm.trans (handle_eq limits_hi))
  have hlen := congrArg List.length (hqueued.symm.trans hframed.message)
  rw [length_resize] at hlen
  have hshort : (built epoch [] (ascii "hi") []).outgoing.text.length < sendBufferSize := by
    decide +kernel
  exact hshort.ne' hlen

end Response

end Sails.Net
