import Sails.Net.Http.RequestGrammar
import Sails.Net.Http.Response

/-!
# `HttpRequest` and the text it is sent as

- `setHeader`, `setBody`, `setRequestMethod`, `setHttpProto`, `toString`: translated from `http.cc`
- `setHeader_eq_response`: with texts that fit, `SetHeader` of a request does what that of a response
  does
- `RequestCall`, `Request.built`: the calls that build a request, and the request they leave
- `toString_reads_iff`: the text is read as the request exactly when the method is `GET` and
  `Content-Length` gives the size of the body
-/

namespace Sails.Net

open TransitionRun
open CMemory
open Sails.Base

/-! ## The source -/

/-- `strcpy(a, s)`. -/
def strcpy {n : Nat} (a : CharArray n) (s : Bytes) : Except Fault (CharArray n) :=
  a.store 0 (s ++ [0])

namespace HttpRequest

/-- The loop of `SetHeader` over `remaining` headers from `i` on. -/
def replaceHeader (key value : Bytes) (m : HttpMessage) (i : Nat) :
    Nat → Except Fault (HttpMessage × Bool)
  | 0 => .ok (m, false)
  | remaining + 1 =>
    if h : i < maxHeaders then
      if SameName (m.headers ⟨i, h⟩).name.str key then do
        let text ← strcpy (.zero _) value
        let headers := Function.update m.headers ⟨i, h⟩ { m.headers ⟨i, h⟩ with value := text }
        let (m', _) ← replaceHeader key value { m with headers := headers } (i + 1) remaining
        .ok (m', true)
      else replaceHeader key value m (i + 1) remaining
    else .error .outOfBounds

/-- The branch of `SetHeader` for a name not there yet. -/
def addHeader (m : HttpMessage) (key value : Bytes) : Except Fault HttpMessage := do
  let numHeaders := m.numHeaders + 1
  let i ← headerAt (numHeaders - 1)
  let name ← strcpy (m.headers i).name key
  let text ← strcpy (m.headers i).value value
  .ok { m with numHeaders := numHeaders, headers := Function.update m.headers i ⟨name, text⟩ }

/-- `HttpRequest::SetHeader`; `none` is a null pointer. Unlike that of a response it copies with
`strcpy`, so a text that is too long is a fault. -/
def setHeader (m : HttpMessage) (key value : Option Bytes) : Except Fault HttpMessage :=
  match key, value with
  | some key, some value =>
    if key.length > 0 then do
      let (m, exist) ← replaceHeader key value m 0 m.numHeaders.toNat
      if exist then .ok m else addHeader m key value
    else .ok m
  | _, _ => .ok m

/-- `HttpRequest::SetBody(body, len)`, with its result. -/
def setBody (m : HttpMessage) (body : Bytes) (len : Int) : Except Fault (HttpMessage × Int) :=
  if len > maxBodySize then .ok (m, 1)
  else do
    let bodySize := (len % 2 ^ 64).toNat
    let source ← if bodySize ≤ body.length then .ok (body.take bodySize) else .error .outOfBounds
    let stored ← (CharArray.zero maxBodySize).store 0 source
    let bodySizeStr ← (CharArray.zero 11).snprintf (decimal bodySize)
    let m ← setHeader { m with body := stored, bodySize := bodySize } (some (ascii "Content-Length"))
      (some bodySizeStr.str)
    .ok (m, 0)

/-- `HttpRequest::SetHttpProto`, with numbers an `int16_t` holds. -/
def setHttpProto (m : HttpMessage) (httpMajor httpMinor : Nat) : HttpMessage :=
  { m with httpMajor := httpMajor, httpMinor := httpMinor }

/-- `HttpRequest::SetRequestMethod`. -/
def setRequestMethod (m : HttpMessage) (method : Nat) : HttpMessage := { m with method := method }

/-- `HttpRequest::ToString`: the bytes copied to `data`. -/
def toString (m : HttpMessage) (len : Nat) : Except Fault Bytes := messageToString .request m len

/-! ## The two copies of `SetHeader` -/

/-- A text that fits needs no cut. -/
theorem strcpy_eq_snprintf {n : Nat} {s : Bytes} (h : IsText n s) (a : CharArray n) :
    strcpy a s = a.snprintf s := by
  have hlt := h.1
  rw [strcpy, CharArray.snprintf, List.take_of_length_le (by omega)]

theorem replaceHeader_eq_response {key value : Bytes} (h : IsText maxElementSize value)
    (m : HttpMessage) (i remaining : Nat) :
    replaceHeader key value m i remaining = Net.replaceHeader key value m i remaining := by
  induction remaining generalizing m i with
  | zero => rfl
  | succ remaining ih => simp only [replaceHeader, Net.replaceHeader, strcpy_eq_snprintf h, ih]

/-- **The two `SetHeader`s agree** on texts that fit their arrays. -/
theorem setHeader_eq_response {key value : Bytes} (hkey : IsText maxElementSize key)
    (hvalue : IsText maxElementSize value) (m : HttpMessage) :
    setHeader m (some key) (some value) = Net.setHeader m (some key) (some value) := by
  have hadd : ∀ m, addHeader m key value = Net.addHeader m key value := by
    intro m
    simp only [addHeader, Net.addHeader, strcpy_eq_snprintf hkey, strcpy_eq_snprintf hvalue]
  simp only [setHeader, Net.setHeader, replaceHeader_eq_response hvalue, hadd]

end HttpRequest

/-! ## Building a request -/

/-- A call on a request under construction. -/
inductive RequestCall where
  | setHttpProto (httpMajor httpMinor : Nat)
  | setRequestMethod (method : Nat)
  | setHeader (key value : Bytes)
  | setBody (body : Bytes)

/-- The call on the record. -/
def RequestCall.perform (m : HttpMessage) : RequestCall → Except Fault HttpMessage
  | setHttpProto httpMajor httpMinor => .ok (HttpRequest.setHttpProto m httpMajor httpMinor)
  | setRequestMethod method => .ok (HttpRequest.setRequestMethod m method)
  | setHeader key value => HttpRequest.setHeader m (some key) (some value)
  | setBody body => (HttpRequest.setBody m body body.length).map Prod.fst

/-- The call on the lists. -/
def RequestCall.apply (r : Request) : RequestCall → Request
  | setHttpProto httpMajor httpMinor => { r with httpMajor := httpMajor, httpMinor := httpMinor }
  | setRequestMethod method => { r with method := method }
  | setHeader key value => { r with headers := putHeader r.headers key value }
  | setBody body =>
    { r with
      headers := putHeader r.headers (ascii "Content-Length") (decimal body.length)
      body := body }

/-- Versions are numbers of an `int16_t`, texts fit their arrays and their lines, and the body fits. -/
def RequestCall.Allowed : RequestCall → Prop
  | setHttpProto httpMajor httpMinor => httpMajor < 2 ^ 15 ∧ httpMinor < 2 ^ 15
  | setRequestMethod _ => True
  | setHeader key value =>
    IsText maxElementSize key ∧ IsText maxElementSize value ∧ Request.NamesValue (key, value)
  | setBody body => body.length ≤ maxBodySize

instance : DecidablePred RequestCall.Allowed
  | .setHttpProto .. => inferInstanceAs (Decidable (_ ∧ _))
  | .setRequestMethod _ => isTrue trivial
  | .setHeader .. => inferInstanceAs (Decidable (_ ∧ _ ∧ _))
  | .setBody _ => inferInstanceAs (Decidable (_ ≤ _))

/-- `HttpRequest::SetDefaultHeader`; the table's empty rows change nothing. -/
def defaultCalls : List RequestCall :=
  [.setHttpProto 1 1, .setRequestMethod 1,
    .setHeader (ascii "Accept")
      (ascii "text/html,application/xhtml+xml,application/xml;q=0.9,image/webp,*/*;q=0.8"),
    .setHeader (ascii "Accept-Encoding") (ascii "gzip,deflate,sdch"),
    .setHeader (ascii "Accept-Language") (ascii "en-US,en;q=0.8,zh-CN;q=0.6,zh;q=0.4"),
    .setHeader (ascii "Connection") (ascii "keep-alive"),
    .setHeader (ascii "Content-Length") (ascii "0"),
    .setHeader (ascii "Host") [],
    .setHeader (ascii "User-Agent") (ascii ("Mozilla/5.0 (X11; Linux x86_64) AppleWebKit/537.36 " ++
      "(KHTML, like Gecko) Chrome/31.0.1650.63 Safari/537.36"))] ++
    List.replicate 6 (.setHeader [] [])

namespace Request

/-- The message `HttpRequest` is constructed with, its url set by the client. -/
def initial (url : Bytes) : Request := ⟨0, url, 1, 1, [], []⟩

/-- The request these calls leave. -/
def built (url : Bytes) (calls : List RequestCall) : Request :=
  calls.foldl RequestCall.apply (initial url)

/-- The record that holds the request. -/
def record (r : Request) : HttpMessage :=
  withHeaders { HttpMessage.init with
    method := r.method
    requestUrl := .ofBytes _ r.url
    httpMajor := r.httpMajor
    httpMinor := r.httpMinor
    body := .ofBytes _ r.body
    bodySize := r.body.length } r.headers

/-- The message that is sent; the request line has `GET` in it, whatever the method. -/
def outgoing (r : Request) : Outgoing where
  startLine := line (ascii "GET") r.url r.httpMajor r.httpMinor
  headers := r.headers
  body := r.body

/-- The request respects the sizes of the record, and its parts can be told from each other. -/
structure Fits (r : Request) : Prop where
  url : IsText maxPathSize r.url
  within : WithinLine r.url
  major : r.httpMajor < 2 ^ 15
  minor : r.httpMinor < 2 ^ 15
  rows : RowsFit r.headers
  named : ∀ h ∈ r.headers, NamesValue h
  body : r.body.length ≤ maxBodySize

variable {r : Request}

theorem Fits.isText_line (h : r.Fits) :
    IsText statusLineSize (line (ascii "GET") r.url r.httpMajor r.httpMinor) := by
  have hversion : ∀ n : Nat, n < 2 ^ 15 → (decimal n).length ≤ 5 := fun n hn =>
    length_decimal_le (by decide) (hn.trans (by decide))
  have hmajor := hversion _ h.major
  have hminor := hversion _ h.minor
  have hurl := h.url.1
  refine ⟨?_, fun c hc => ?_⟩
  · have hget : (ascii "GET").length = 3 := rfl
    have hspace : (ascii " ").length = 1 := rfl
    have hlead : (ascii " HTTP/").length = 6 := rfl
    have hdot : (ascii ".").length = 1 := rfl
    have hsize : statusLineSize = 2078 := rfl
    have hpath : maxPathSize = 1024 := rfl
    simp only [line, List.length_append, hget, hspace, hlead, hdot]
    omega
  · simp only [line, List.mem_append] at hc
    have hascii : ∀ s ∈ [ascii "GET", ascii " ", ascii " HTTP/", ascii "."], ∀ c ∈ s, c ≠ 0 := by
      decide +kernel
    rcases hc with (((((hc | hc) | hc) | hc) | hc) | hc) | hc
    · exact hascii _ (by simp) c hc
    · exact hascii _ (by simp) c hc
    · exact h.url.2 c hc
    · exact hascii _ (by simp) c hc
    · exact ne_zero_of_mem_decimal hc
    · exact hascii _ (by simp) c hc
    · exact ne_zero_of_mem_decimal hc

theorem Fits.outgoing (h : r.Fits) : r.outgoing.Fits where
  startLine := h.isText_line
  headers_le := h.rows.length_le
  headers := h.rows.texts
  body := h.body

theorem Fits.heldBy (h : r.Fits) : r.outgoing.HeldBy .request r.record where
  startLine := by
    -- both branches of the source print the same name
    have hline : requestLine r.record = line (ascii "GET") r.url r.httpMajor r.httpMinor := by
      have hurl : r.record.requestUrl.str = r.url := CharArray.str_ofBytes h.url.1 h.url.2
      have hmethod : (if r.record.method = 1 then ascii "GET" else ascii "GET") = ascii "GET" :=
        ite_self _
      simp only [requestLine, hurl, hmethod]
      rfl
    rw [statusLine, hline]
    exact snprintf_text h.isText_line
  numHeaders := rfl
  headers := rfl
  body := rfl
  bodySize := rfl

/-! ### The calls -/

theorem namesValue_putHeader {hs : List (Bytes × Bytes)} (h : ∀ x ∈ hs, NamesValue x)
    {key value : Bytes} (hnew : NamesValue (key, value)) :
    ∀ x ∈ putHeader hs key value, NamesValue x := by
  intro x hx
  unfold putHeader at hx
  split at hx
  · exact h x hx
  · split at hx
    · obtain ⟨y, hy, rfl⟩ := List.mem_map.mp hx
      split
      · exact ⟨(h y hy).1, (h y hy).2.1, hnew.2.2⟩
      · exact h y hy
    · rcases List.mem_append.mp hx with hx | hx
      · exact h x hx
      · rw [List.mem_singleton.mp hx]
        exact hnew

theorem Fits.setHeader (h : r.Fits) {m : HttpMessage} {key value : Bytes}
    (hkey : IsText maxElementSize key) (hvalue : IsText maxElementSize value)
    (hle : (putHeader r.headers key value).length ≤ maxHeaders) :
    HttpRequest.setHeader (withHeaders m r.headers) (some key) (some value) =
      .ok (withHeaders m (putHeader r.headers key value)) := by
  rw [HttpRequest.setHeader_eq_response hkey hvalue]
  exact setHeader_eq h.rows hkey hvalue hle

theorem Fits.perform (h : r.Fits) {c : RequestCall} (hc : c.Allowed)
    (hle : (c.apply r).headers.length ≤ maxHeaders) :
    c.perform r.record = .ok (c.apply r).record ∧ (c.apply r).Fits := by
  cases c with
  | setHttpProto httpMajor httpMinor =>
    exact ⟨rfl, h.url, h.within, hc.1, hc.2, h.rows, h.named, h.body⟩
  | setRequestMethod method =>
    exact ⟨rfl, h.url, h.within, h.major, h.minor, h.rows, h.named, h.body⟩
  | setHeader key value =>
    exact ⟨h.setHeader hc.1 hc.2.1 hle, h.url, h.within, h.major, h.minor,
      h.rows.putHeader hc.1 hc.2.1 hle, namesValue_putHeader h.named hc.2.2, h.body⟩
  | setBody body =>
    have hdecimal := Response.isText_decimal (n := body.length) hc
    have hvalue : IsText maxElementSize (decimal body.length) :=
      ⟨hdecimal.1.trans (by decide), hdecimal.2⟩
    have hname : (58 : UInt8) ∉ ascii "Content-Length" ∧ WithinLine (ascii "Content-Length") := by
      decide
    have hnamed : NamesValue (ascii "Content-Length", decimal body.length) :=
      ⟨hname.1, hname.2, withinLine_decimal _⟩
    refine ⟨?_, h.url, h.within, h.major, h.minor,
      h.rows.putHeader Response.isText_contentLength hvalue hle, namesValue_putHeader h.named hnamed, hc⟩
    have hmax : body.length ≤ maxBodySize := hc
    have hsize : ((body.length : Int) % 2 ^ 64).toNat = body.length := by
      have hmax' : maxBodySize = 20480 := rfl
      omega
    have hsmall : ¬ (body.length : Int) > maxBodySize := by omega
    have hstore := CharArray.store_ofBytes (n := maxBodySize) (s := []) (t := body)
      (by simpa using hmax)
    rw [CharArray.ofBytes_nil, List.nil_append, List.length_nil] at hstore
    have hset := h.setHeader (m := { r.record with
      body := .ofBytes _ body, bodySize := body.length }) Response.isText_contentLength hvalue hle
    simp only [RequestCall.perform, HttpRequest.setBody, if_neg hsmall, hsize, if_pos (Nat.le_refl _),
      List.take_length, hstore, snprintf_text hdecimal, CharArray.str_ofBytes hdecimal.1 hdecimal.2,
      bind, Except.bind]
    exact congrArg (fun e => (e >>= fun m => .ok (m, (0 : Int))).map Prod.fst) hset

theorem length_le_apply (r : Request) (c : RequestCall) :
    r.headers.length ≤ (c.apply r).headers.length := by
  cases c with
  | setHeader key value => exact length_le_putHeader ..
  | setBody body =>
    exact length_le_putHeader r.headers (ascii "Content-Length") (decimal body.length)
  | _ => exact Nat.le_refl _

theorem Fits.performs (h : r.Fits) {cs : List RequestCall} (hcs : ∀ c ∈ cs, c.Allowed)
    (hle : (cs.foldl RequestCall.apply r).headers.length ≤ maxHeaders) :
    cs.foldlM RequestCall.perform r.record = .ok (cs.foldl RequestCall.apply r).record ∧
      (cs.foldl RequestCall.apply r).Fits :=
  foldlM_represents length_le_apply (fun _ c hc hfits hlen => hfits.perform (hcs c hc) hlen) h hle

/-! ## Reading the text back -/

/-- The limits on what a client may do. -/
structure Limits (url : Bytes) (calls : List RequestCall) : Prop where
  isText : IsText maxPathSize url
  within : WithinLine url
  allowed : ∀ c ∈ calls, c.Allowed
  headers_le : (built url calls).headers.length ≤ maxHeaders

/-- The message given to the constructor of `HttpRequest`: a cleared one with its url. -/
def construct (url : Bytes) : HttpMessage :=
  { HttpMessage.init with requestUrl := .ofBytes _ url }

variable {url : Bytes} {calls : List RequestCall}

theorem record_initial (url : Bytes) : (initial url).record = construct url := by
  simp only [record, initial, construct, withHeaders, headerTable_nil, CharArray.ofBytes_nil]
  rfl

theorem Limits.built_eq (h : Limits url calls) :
    calls.foldlM RequestCall.perform (construct url) = .ok (built url calls).record ∧
      (built url calls).Fits := by
  have hone : (1 : Nat) < 2 ^ 15 := by decide
  have hfits : (initial url).Fits :=
    ⟨h.isText, h.within, hone, hone, ⟨Nat.zero_le _, by simp [initial]⟩, by simp [initial],
      Nat.zero_le _⟩
  rw [← record_initial]
  exact hfits.performs h.allowed h.headers_le

/-- What a receiver reads of the text. -/
theorem Fits.read_text (h : r.Fits) (rest : Bytes) :
    read (r.outgoing.text ++ rest) = (contentLength r.headers).bind fun count =>
      if count ≤ (r.body ++ rest).length then
        some { r with method := 1, body := (r.body ++ rest).take count }
      else none :=
  read_outgoing rfl (by decide) (by decide) h.within h.named rest

/-- It is the request exactly if the method is `GET` and the body's length is known. -/
theorem Fits.read_text_iff (h : r.Fits) (rest : Bytes) :
    read (r.outgoing.text ++ rest) = some r ↔
      r.method = 1 ∧ contentLength r.headers = some r.body.length := by
  rw [h.read_text]
  constructor
  · intro hread
    obtain ⟨count, hcount, hsome⟩ := Option.bind_eq_some_iff.mp hread
    split at hsome
    · rename_i hle
      have hr := Option.some.inj hsome
      have hbody : (r.body ++ rest).take count = r.body := congrArg Request.body hr
      have hlen := congrArg List.length hbody
      rw [List.length_take, Nat.min_eq_left hle] at hlen
      exact ⟨(congrArg Request.method hr).symm, hcount.trans (congrArg some hlen)⟩
    · exact nomatch hsome
  · rintro ⟨hmethod, hcount⟩
    have hle : r.body.length ≤ (r.body ++ rest).length := by
      rw [List.length_append]
      exact Nat.le_add_right _ _
    rw [hcount, Option.bind_some, if_pos hle, List.take_left, ← hmethod]

/-- The rows of the name all have the value, and there is one. -/
theorem find?_putHeader (hs : List (Bytes × Bytes)) {key : Bytes} (value : Bytes) (hne : key ≠ []) :
    ∃ name, (putHeader hs key value).find? (fun h => decide (SameName h.1 key)) =
      some (name, value) := by
  rw [putHeader, if_neg hne]
  split
  · rename_i hany
    induction hs with
    | nil => cases hany
    | cons x hs ih =>
      by_cases hsame : SameName x.1 key
      · exact ⟨x.1, by simp [hsame]⟩
      · have hrest : (hs.any fun h => SameName h.1 key) = true := by simpa [hsame] using hany
        obtain ⟨name, hfind⟩ := ih hrest
        exact ⟨name, by rw [List.map_cons, if_neg hsame, List.find?_cons_of_neg (by simpa using hsame),
          hfind]⟩
  · rename_i hany
    have hnone : hs.find? (fun h => decide (SameName h.1 key)) = none := by
      rw [List.find?_eq_none]
      exact fun x hx hsame => hany (List.any_eq_true.mpr ⟨x, hx, hsame⟩)
    have hsame : SameName key key := rfl
    exact ⟨key, by simp [List.find?_append, hnone, hsame]⟩

/-- After `SetBody` a receiver finds the length of the body, whatever the headers were before. -/
theorem contentLength_setBody (r : Request) (body : Bytes) :
    contentLength (RequestCall.apply r (.setBody body)).headers = some body.length := by
  obtain ⟨name, hfind⟩ := find?_putHeader r.headers (decimal body.length)
    (by decide : ascii "Content-Length" ≠ [])
  rw [RequestCall.apply, contentLength, hfind]
  exact TextReader.readDecimal_decimal body.length

theorem Limits.toString_eq (h : Limits url calls) {len : Nat}
    (hlen : (built url calls).outgoing.text.length ≤ len) :
    HttpRequest.toString (built url calls).record len = .ok ((built url calls).outgoing.text ++
      (crlf ++ [0]).take (len - (built url calls).outgoing.text.length)) := by
  obtain ⟨-, hfits⟩ := h.built_eq
  rw [HttpRequest.toString, messageToString_eq hfits.outgoing hfits.heldBy, List.append_assoc,
    List.take_append, List.take_of_length_le hlen]

/-- **The text of a request.** Whatever calls have built the request, `ToString` copies its text, and
a receiver reads it as the request exactly when the method is `GET` and `Content-Length` gives the
size of the body. -/
theorem toString_reads_iff (h : Limits url calls) {len : Nat}
    (hlen : (built url calls).outgoing.text.length ≤ len) :
    calls.foldlM RequestCall.perform (construct url) = .ok (built url calls).record ∧
      ∃ data, HttpRequest.toString (built url calls).record len = .ok data ∧
        (read data = some (built url calls) ↔
          (built url calls).method = 1 ∧
            contentLength (built url calls).headers = some (built url calls).body.length) := by
  obtain ⟨hbuilt, hfits⟩ := h.built_eq
  exact ⟨hbuilt, _, h.toString_eq hlen, hfits.read_text_iff _⟩

/-! ## Instances -/

/-- A request with the default headers, a `Host` and a body of two bytes. -/
def getCalls : List RequestCall :=
  defaultCalls ++ [.setHeader (ascii "Host") (ascii "sails"), .setBody (ascii "hi")]

theorem limits_get : Limits (ascii "/index") getCalls where
  isText := by decide
  within := by decide
  allowed := by decide +kernel
  headers_le := by decide +kernel

theorem toString_reads_get :
    getCalls.foldlM RequestCall.perform (construct (ascii "/index")) =
        .ok (built (ascii "/index") getCalls).record ∧
      ∃ data, HttpRequest.toString (built (ascii "/index") getCalls).record 1000 = .ok data ∧
        (read data = some (built (ascii "/index") getCalls) ↔
          (built (ascii "/index") getCalls).method = 1 ∧
            contentLength (built (ascii "/index") getCalls).headers =
              some (built (ascii "/index") getCalls).body.length) :=
  toString_reads_iff limits_get (by decide +kernel)

/-- A `POST` of the same text. -/
def postCalls : List RequestCall := getCalls ++ [.setRequestMethod 3]

/-- The method is set after the headers. -/
theorem limits_post : Limits (ascii "/index") postCalls := by
  have hsame : (built (ascii "/index") postCalls).headers =
      (built (ascii "/index") getCalls).headers := by
    rw [built, postCalls, List.foldl_append]
    rfl
  refine ⟨limits_get.isText, limits_get.within, ?_, hsame ▸ limits_get.headers_le⟩
  refine List.forall_mem_append.mpr ⟨limits_get.allowed, fun c hc => ?_⟩
  rw [List.mem_singleton.mp hc]
  trivial

/-- The text of a `POST` begins with `GET`. -/
theorem toString_post_not_read :
    ¬ ∃ m data, postCalls.foldlM RequestCall.perform (construct (ascii "/index")) = .ok m ∧
      HttpRequest.toString m 1000 = .ok data ∧ read data = some (built (ascii "/index") postCalls) := by
  rintro ⟨m, data, hm, hdata, hread⟩
  obtain ⟨hbuilt, hfits⟩ := limits_post.built_eq
  obtain rfl := Except.ok.inj (hm.symm.trans hbuilt)
  obtain rfl := Except.ok.inj (hdata.symm.trans (limits_post.toString_eq (by decide +kernel)))
  have hmethod := ((hfits.read_text_iff _).mp hread).1
  exact absurd hmethod (by decide +kernel)

end Request

end Sails.Net
