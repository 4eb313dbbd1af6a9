import Sails.Net.Http.Message

/-!
# The message record under arbitrary callbacks

- `HttpMessage.WellFormed`: the header count is in range and every array is terminated
- `HttpMessage.Building`: what the callbacks keep of a message under construction
- `Fits`: the condition under which the next callback stays inside its array
- `callbackStep_spec`: one callback that fits keeps the records well formed
- `callbacks_safe`: so does every run of callbacks that all fit
-/

namespace Sails.Net

open TransitionRun
open CMemory
open Sails.Base

/-! ## Invariants -/

/-- A message whose header count is in range and whose strings all end inside their arrays. -/
structure HttpMessage.WellFormed (m : HttpMessage) : Prop where
  numHeaders_nonneg : 0 ≤ m.numHeaders
  numHeaders_le : m.numHeaders ≤ maxHeaders
  responseStatus : m.responseStatus.Terminated
  requestPath : m.requestPath.Terminated
  requestUrl : m.requestUrl.Terminated
  queryString : m.queryString.Terminated
  body : m.body.Terminated
  name : ∀ i, (m.headers i).name.Terminated
  value : ∀ i, (m.headers i).value.Terminated

/-- A message under construction: besides, the query string and the host have not been written, and
a header element has been seen only if there is a header. -/
structure HttpMessage.Building (m : HttpMessage) : Prop extends m.WellFormed where
  query_zero : m.queryString = .zero _
  host_none : m.host = none
  begun : m.lastHeaderElement ≠ .none → 1 ≤ m.numHeaders

/-- All records of a parser are well formed. -/
structure RecordsSafe (s : ParserRun) : Prop where
  message : s.parserFlag.message.Building
  messageList : ∀ m ∈ s.parserFlag.messageList, m.WellFormed

theorem building_init : HttpMessage.init.Building where
  numHeaders_nonneg := le_refl _
  numHeaders_le := by decide
  responseStatus := CharArray.terminated_zero (by decide)
  requestPath := CharArray.terminated_zero (by decide)
  requestUrl := CharArray.terminated_zero (by decide)
  queryString := CharArray.terminated_zero (by decide)
  body := CharArray.terminated_zero (by decide)
  name := fun _ => CharArray.terminated_zero (by decide)
  value := fun _ => CharArray.terminated_zero (by decide)
  query_zero := rfl
  host_none := rfl
  begun := fun h => absurd rfl h

theorem recordsSafe_init : RecordsSafe .init where
  message := building_init
  messageList := by simp [ParserRun.init]

/-! ## Conditions -/

/-- The value of the header that `parser_url` takes for the host. -/
def HttpMessage.hostValue (m : HttpMessage) : Bytes :=
  match findHost m.headers 0 m.numHeaders.toNat with
  | .ok (some i) => (m.headers i).value.str
  | _ => []

/-- The header that the next `header_field_cb` appends to. -/
def HttpMessage.fieldIndex (m : HttpMessage) : Int :=
  if m.lastHeaderElement ≠ .field then m.numHeaders else m.numHeaders - 1

/-- A URL that `parser_url` may put together: it has the scheme and fits its array. -/
def IsHttpUrl (url : Bytes) : Prop :=
  (∃ rest, url = ascii "http://" ++ rest) ∧ url.length < maxPathSize

/-- The URL that `parser_url` puts together. -/
def HttpMessage.urlText (m : HttpMessage) : Bytes :=
  ascii "http://" ++ m.hostValue ++ m.requestUrl.str

/-- The local `url` has room for it. -/
def HttpMessage.UrlFits (m : HttpMessage) : Prop :=
  7 + m.hostValue.length + m.requestUrl.str.length < maxPathSize

theorem length_http : (ascii "http://").length = 7 := by decide

theorem HttpMessage.UrlFits.isHttpUrl {m : HttpMessage} (h : m.UrlFits) : IsHttpUrl m.urlText := by
  refine ⟨⟨m.hostValue ++ m.requestUrl.str, by rw [urlText, List.append_assoc]⟩, ?_⟩
  rw [urlText, List.length_append, List.length_append, length_http]
  exact h

/-- The next callback stays within its bounds: a new header finds a free place, what has
been collected and the text of the piece leave room for a NUL, and so do the parts of the
URL that is put together at the end of a message. -/
def HttpMessage.Fits (m : HttpMessage) : Callback → Prop
  | .messageBegin => True
  | .requestUrl piece => m.requestUrl.str.length + (text piece).length < maxPathSize
  | .responseStatus piece => m.responseStatus.str.length + (text piece).length < maxElementSize
  | .headerField piece => m.fieldIndex < maxHeaders ∧
      ∀ i : Fin maxHeaders, (i : Int) = m.fieldIndex →
        (m.headers i).name.str.length + (text piece).length < maxElementSize
  | .headerValue piece => ∀ i : Fin maxHeaders, (i : Int) = m.numHeaders - 1 →
      (m.headers i).value.str.length + (text piece).length < maxElementSize
  | .headersComplete _ => True
  | .body _ piece => m.body.str.length + (text piece).length < maxBodySize
  | .messageComplete p => MessageConsistent m p → m.UrlFits

/-- `Fits` for the callback a run makes next, if it makes one. -/
def Fits (s : ParserRun) (c : Callback) : Prop :=
  s.stopped = false → s.parserFlag.message.Fits c

/-- The parser reports a header value only behind a header name of the same message. -/
def ValueAfterField (s : ParserRun) : Callback → Prop
  | .headerValue _ => s.parserFlag.message.lastHeaderElement ≠ .none
  | _ => True

/-- The call returns on this URL. -/
def Answers (parseUrl : ParseUrl) (url : Bytes) : Prop := ∃ answer, parseUrl url = .ok answer

/-- The parts that a call of `http_parser_parse_url` reports lie inside the URL. -/
def ReportsInside (parseUrl : ParseUrl) : Prop :=
  ∀ url u, IsHttpUrl url → parseUrl url = .ok (some u) →
    ∀ part : Nat × Nat, u.host = some part ∨ u.path = some part ∨ u.query = some part →
      part.1 + part.2 ≤ url.length

/-- Every URL is answered, and with parts inside it. -/
structure PartsInside (parseUrl : ParseUrl) : Prop where
  answers : ∀ url, IsHttpUrl url → Answers parseUrl url
  inside : ReportsInside parseUrl

/-- The end of a message finds its URL answered. -/
def HttpMessage.UrlAnswered (m : HttpMessage) (parseUrl : ParseUrl) : Callback → Prop
  | .messageComplete p => MessageConsistent m p → Answers parseUrl m.urlText
  | _ => True

/-- `UrlAnswered` for the callback a run makes next, if it makes one. -/
def UrlAnswered (parseUrls : Nat → ParseUrl) (s : ParserRun) (c : Callback) : Prop :=
  s.stopped = false →
    s.parserFlag.message.UrlAnswered (parseUrls s.parserFlag.messageList.length) c

/-! ## One callback -/

theorem headerAt_of_mem {i : Int} (h0 : 0 ≤ i) (h1 : i < maxHeaders) :
    ∃ j : Fin maxHeaders, headerAt i = .ok j ∧ (j : Int) = i := by
  refine ⟨⟨i.toNat, by omega⟩, ?_, by simp [h0]⟩
  simp [headerAt, h0, h1]

/-- `strlncat` on an array with room. -/
theorem strlncat_of_fits {n : Nat} {dst : CharArray n} {src : Bytes}
    (h : dst.str.length + (text src).length < n) :
    ∃ dst' len, strlncat dst src = .ok (dst', len) ∧ dst'.Terminated := by
  have hspec := strlncat_spec dst src
  rw [if_pos h] at hspec
  obtain ⟨dst', hok, -, hterm⟩ := hspec
  exact ⟨dst', _, hok, hterm⟩

theorem strlncat_of_not_fits {n : Nat} {dst : CharArray n} {src : Bytes}
    (h : ¬ dst.str.length + (text src).length < n) : strlncat dst src = .error .assertion := by
  have hspec := strlncat_spec dst src
  rwa [if_neg h] at hspec

/-- Writing one header keeps the terminators of all. -/
theorem HttpMessage.WellFormed.name_update {m : HttpMessage} (h : m.WellFormed)
    (i : Fin maxHeaders) {header : Header} (hname : header.name.Terminated) :
    ∀ j, (Function.update m.headers i header j).name.Terminated := fun j => by
  by_cases hij : j = i
  · subst hij; simpa using hname
  · simpa [Function.update_of_ne hij] using h.name j

theorem HttpMessage.WellFormed.value_update {m : HttpMessage} (h : m.WellFormed)
    (i : Fin maxHeaders) {header : Header} (hvalue : header.value.Terminated) :
    ∀ j, (Function.update m.headers i header j).value.Terminated := fun j => by
  by_cases hij : j = i
  · subst hij; simpa using hvalue
  · simpa [Function.update_of_ne hij] using h.value j

theorem fieldIndex_eq (m : HttpMessage) :
    (if m.lastHeaderElement ≠ .field then m.numHeaders + 1 else m.numHeaders) - 1 =
      m.fieldIndex := by
  unfold HttpMessage.fieldIndex
  split <;> omega

theorem HttpMessage.Building.fieldIndex_nonneg {m : HttpMessage} (hm : m.Building) :
    0 ≤ m.fieldIndex := by
  unfold HttpMessage.fieldIndex
  split
  · exact hm.numHeaders_nonneg
  · rename_i hfield
    have := hm.begun (by rw [not_not.mp hfield]; decide)
    omega

theorem headerFieldCb_spec {m : HttpMessage} (hm : m.Building) {piece : Bytes}
    (hfits : m.Fits (.headerField piece)) :
    ∃ m', headerFieldCb m piece = .ok m' ∧ m'.Building := by
  obtain ⟨hroom, htext⟩ := hfits
  have hn := hm.numHeaders_nonneg
  have hle := hm.numHeaders_le
  have hidx := fieldIndex_eq m
  -- there is room for the field, and its piece fits behind the name read so far
  obtain ⟨i, hat, hi⟩ := headerAt_of_mem hm.fieldIndex_nonneg hroom
  obtain ⟨name, len, hcat, hterm⟩ := strlncat_of_fits (htext i hi)
  simp only [headerFieldCb, hidx, hat, hcat, bind, Except.bind]
  refine ⟨_, rfl, ?_⟩
  exact
    { hm with
      numHeaders_nonneg := by dsimp only; split <;> omega
      numHeaders_le := by
        dsimp only
        omega
      name := hm.name_update i hterm
      value := hm.value_update i (hm.value i)
      begun := fun _ => by
        have := hm.fieldIndex_nonneg
        dsimp only
        omega }

theorem headerValueCb_spec {m : HttpMessage} (hm : m.Building) {piece : Bytes}
    (hbegun : m.lastHeaderElement ≠ .none) (hfits : m.Fits (.headerValue piece)) :
    ∃ m', headerValueCb m piece = .ok m' ∧ m'.Building := by
  have hpos := hm.begun hbegun
  have hle := hm.numHeaders_le
  obtain ⟨i, hat, hi⟩ := headerAt_of_mem (i := m.numHeaders - 1) (by omega) (by omega)
  obtain ⟨value, len, hcat, hterm⟩ := strlncat_of_fits (hfits i hi)
  simp only [headerValueCb, hat, hcat, bind, Except.bind]
  refine ⟨_, rfl, ?_⟩
  exact
    { hm with
      name := hm.name_update i (hm.name i)
      value := hm.value_update i hterm
      begun := fun _ => hpos }

theorem requestUrlCb_spec {m : HttpMessage} (hm : m.Building) {piece : Bytes}
    (hfits : m.Fits (.requestUrl piece)) :
    ∃ m', requestUrlCb m piece = .ok m' ∧ m'.Building := by
  obtain ⟨url, len, hcat, hterm⟩ := strlncat_of_fits hfits
  simp only [requestUrlCb, hcat, bind, Except.bind]
  exact ⟨_, rfl, { hm with requestUrl := hterm }⟩

theorem responseStatusCb_spec {m : HttpMessage} (hm : m.Building) {piece : Bytes}
    (hfits : m.Fits (.responseStatus piece)) :
    ∃ m', responseStatusCb m piece = .ok m' ∧ m'.Building := by
  obtain ⟨status, len, hcat, hterm⟩ := strlncat_of_fits hfits
  simp only [responseStatusCb, hcat, bind, Except.bind]
  exact ⟨_, rfl, { hm with responseStatus := hterm }⟩

theorem checkBodyIsFinal_spec {f : ParserFlag} (hm : f.message.Building) (p : HttpParser) :
    (checkBodyIsFinal f p).message.Building ∧
      (checkBodyIsFinal f p).messageList = f.messageList := by
  unfold checkBodyIsFinal
  split
  · exact ⟨hm, rfl⟩
  · exact ⟨{ hm with }, rfl⟩

theorem bodyCb_spec {f : ParserFlag} (hm : f.message.Building) {p : HttpParser} {piece : Bytes}
    (hfits : f.message.Fits (.body p piece)) :
    ∃ f', bodyCb f p piece = .ok f' ∧ f'.message.Building ∧ f'.messageList = f.messageList := by
  obtain ⟨body, len, hcat, hterm⟩ := strlncat_of_fits hfits
  simp only [bodyCb, hcat, bind, Except.bind]
  refine ⟨_, rfl, ?_⟩
  exact checkBodyIsFinal_spec (f := { f with message := { f.message with
    body := body, bodySize := f.message.bodySize + piece.length } }) { hm with body := hterm } p

/-! ## The URL of a complete message -/

/-- The search for the host stays inside the array of headers. -/
theorem findHost_ok (headers : Fin maxHeaders → Header) (i remaining : Nat)
    (h : i + remaining ≤ maxHeaders) : ∃ r, findHost headers i remaining = .ok r := by
  induction remaining generalizing i with
  | zero => exact ⟨none, rfl⟩
  | succ remaining ih =>
    have hi : i < maxHeaders := by omega
    obtain ⟨r, hr⟩ := ih (i + 1) (by omega)
    by_cases hhost : (headers ⟨i, hi⟩).name.str = ascii "Host"
    · exact ⟨some ⟨i, hi⟩, by simp [findHost, hi, hhost]⟩
    · exact ⟨r, by simp [findHost, hi, hhost, hr]⟩

/-- The scheme fits the local array. -/
theorem scheme_spec :
    ∃ url, (CharArray.zero maxPathSize).strncat (ascii "http://") (ascii "http://").length =
      .ok url ∧ url.str = ascii "http://" ∧ url.Terminated := by
  have hscheme : text (ascii "http://") = ascii "http://" := by decide
  have hspec := CharArray.strncat_spec (CharArray.terminated_zero (n := maxPathSize) (by decide))
    (ascii "http://")
  rw [hscheme, CharArray.str_zero, if_pos (by decide)] at hspec
  exact hspec

theorem appendHost_spec {m : HttpMessage} (hm : m.WellFormed) {url : CharArray maxPathSize}
    (hurl : url.Terminated) (hfits : url.str.length + m.hostValue.length < maxPathSize) :
    ∃ url', appendHost m url = .ok url' ∧ url'.str = url.str ++ m.hostValue ∧
      url'.Terminated := by
  obtain ⟨r, hr⟩ := findHost_ok m.headers 0 m.numHeaders.toNat (by
    have := hm.numHeaders_nonneg
    have := hm.numHeaders_le
    omega)
  cases r with
  | none =>
    have hvalue : m.hostValue = [] := by rw [HttpMessage.hostValue, hr]
    exact ⟨url, by simp [appendHost, hr, bind, Except.bind], by simp [hvalue], hurl⟩
  | some i =>
    have hvalue : m.hostValue = (m.headers i).value.str := by rw [HttpMessage.hostValue, hr]
    have hspec := CharArray.strncat_spec hurl (m.headers i).value.bytes
    have htext : text (m.headers i).value.bytes = m.hostValue := hvalue.symm
    rw [htext, if_pos hfits, hvalue] at hspec
    rw [hvalue]
    simpa only [appendHost, hr, CharArray.strlen_bytes (hm.value i), bind, Except.bind] using hspec

theorem appendHost_of_not_fits {m : HttpMessage} (hm : m.WellFormed) {url : CharArray maxPathSize}
    (hurl : url.Terminated) (hfits : ¬ url.str.length + m.hostValue.length < maxPathSize) :
    appendHost m url = .error .outOfBounds := by
  have hlt : url.str.length < maxPathSize := hurl
  cases hr : findHost m.headers 0 m.numHeaders.toNat with
  | error e =>
    have hvalue : m.hostValue = [] := by rw [HttpMessage.hostValue, hr]
    rw [hvalue] at hfits
    exact absurd hlt hfits
  | ok r =>
    cases r with
    | none =>
      have hvalue : m.hostValue = [] := by rw [HttpMessage.hostValue, hr]
      rw [hvalue] at hfits
      exact absurd hlt hfits
    | some i =>
      have hvalue : m.hostValue = (m.headers i).value.str := by rw [HttpMessage.hostValue, hr]
      have hspec := CharArray.strncat_spec hurl (m.headers i).value.bytes
      have htext : text (m.headers i).value.bytes = m.hostValue := hvalue.symm
      rw [htext, if_neg hfits, hvalue] at hspec
      simpa only [appendHost, hr, CharArray.strlen_bytes (hm.value i), bind, Except.bind] using hspec

/-- The URL that is put together, when its parts and a NUL fit. -/
theorem buildUrl_spec {m : HttpMessage} (hm : m.WellFormed) (hfits : m.UrlFits) :
    ∃ url, buildUrl m = .ok url ∧ url.str = m.urlText ∧ url.Terminated := by
  rw [HttpMessage.UrlFits] at hfits
  obtain ⟨url₀, hurl₀, hstr₀, hterm₀⟩ := scheme_spec
  obtain ⟨url₁, hurl₁, hstr₁, hterm₁⟩ := appendHost_spec hm hterm₀
    (by rw [hstr₀, length_http]; omega)
  have hlen₁ : url₁.str.length = 7 + m.hostValue.length := by
    rw [hstr₁, List.length_append, hstr₀, length_http]
  have hspec := CharArray.strncat_spec hterm₁ m.requestUrl.bytes
  have hroom : url₁.str.length + (text m.requestUrl.bytes).length < maxPathSize := by
    rw [hlen₁]
    exact hfits
  rw [if_pos hroom] at hspec
  obtain ⟨url, hurl, hstr, hterm⟩ := hspec
  refine ⟨url, ?_, ?_, hterm⟩
  · simp only [buildUrl, hurl₀, hurl₁, CharArray.strlen_bytes hm.requestUrl, bind, Except.bind]
    exact hurl
  · rw [hstr, hstr₁, hstr₀]
    rfl

/-- The URL is not put together when its parts do not fit. -/
theorem buildUrl_of_not_fits {m : HttpMessage} (hm : m.WellFormed) (hfits : ¬m.UrlFits) :
    buildUrl m = .error .outOfBounds := by
  rw [HttpMessage.UrlFits] at hfits
  obtain ⟨url₀, hurl₀, hstr₀, hterm₀⟩ := scheme_spec
  by_cases hhost : url₀.str.length + m.hostValue.length < maxPathSize
  · obtain ⟨url₁, hurl₁, hstr₁, hterm₁⟩ := appendHost_spec hm hterm₀ hhost
    have hspec := CharArray.strncat_spec hterm₁ m.requestUrl.bytes
    have hroom : ¬ url₁.str.length + (text m.requestUrl.bytes).length < maxPathSize := by
      rw [hstr₁, List.length_append, hstr₀, length_http]
      exact hfits
    rw [if_neg hroom] at hspec
    simp only [buildUrl, hurl₀, hurl₁, CharArray.strlen_bytes hm.requestUrl, bind, Except.bind]
    exact hspec
  · have hfail := appendHost_of_not_fits hm hterm₀ hhost
    simp only [buildUrl, hurl₀, hfail, bind, Except.bind]

theorem length_urlPart_le (url : Bytes) (part : Nat × Nat) : (urlPart url part).length ≤ part.2 :=
  List.length_take_le _ _

theorem storePath_spec {requestPath : CharArray maxPathSize} (hpath : requestPath.Terminated)
    (url : Bytes) (path : Option (Nat × Nat))
    (hinside : ∀ part, path = some part → part.2 < maxPathSize) :
    ∃ a, storePath requestPath url path = .ok a ∧ a.Terminated := by
  have hlt : requestPath.str.length < maxPathSize := hpath
  obtain ⟨cleared, hcleared, hbytes⟩ := CharArray.store_eq_ok requestPath 0
    (List.replicate requestPath.str.length 0) (by simp; omega)
  -- the path is cleared up to its NUL, which stays
  have hclearedTerm : cleared.Terminated := by
    rw [CharArray.terminated_iff_mem, hbytes]
    by_cases hempty : requestPath.str.length = 0
    · have hmem := CharArray.terminated_iff_mem.mp hpath
      simpa [hempty, splice] using hmem
    · simp [splice, hempty]
  cases path with
  | none =>
    simp only [storePath, CharArray.strlen_bytes hpath, hcleared, bind, Except.bind]
    exact ⟨cleared, rfl, hclearedTerm⟩
  | some part =>
    -- a part shorter than the array is copied with its NUL
    have hpart := hinside part rfl
    have hle := length_urlPart_le url part
    obtain ⟨a, hstore, -⟩ := CharArray.store_eq_ok cleared 0
      (urlPart url part ++ [0]) (by simp; omega)
    simp only [storePath, CharArray.strlen_bytes hpath, hcleared, bind, Except.bind]
    exact ⟨a, hstore, CharArray.terminated_of_store hstore (by simp)⟩

/-- Storing below the last byte of a cleared array leaves it terminated. -/
theorem terminated_of_store_zero {n : Nat} {a : CharArray n} {bs : Bytes} (hlt : bs.length < n)
    (h : (CharArray.zero n).store 0 bs = .ok a) : a.Terminated := by
  obtain ⟨a', hstore, hbytes⟩ := CharArray.store_eq_ok (CharArray.zero n) 0 bs
    (by omega)
  cases hstore.symm.trans h
  rw [CharArray.terminated_iff_mem, hbytes]
  simp [splice, CharArray.zero, show n - bs.length ≠ 0 by omega]

theorem storeQuery_spec {m : HttpMessage} (hm : m.WellFormed) (hzero : m.queryString = .zero _)
    (url : Bytes) {query : Option (Nat × Nat)} (hinside : ∀ part, query = some part → part.2 < maxPathSize) :
    ∃ m', storeQuery m url query = .ok m' ∧ m'.WellFormed := by
  cases query with
  | none => exact ⟨m, rfl, hm⟩
  | some part =>
    have hpart := hinside part rfl
    have hle := length_urlPart_le url part
    have hsize : maxPathSize < maxElementSize := by decide
    obtain ⟨query, hquery, -⟩ := CharArray.store_eq_ok m.queryString 0
      (urlPart url part) (by omega)
    obtain ⟨path, hpath, -⟩ := CharArray.store_eq_ok m.requestPath part.2 [0]
      (by simp; omega)
    simp only [storeQuery, hquery, hpath, bind, Except.bind]
    exact ⟨_, rfl,
      { hm with
        requestPath := CharArray.terminated_of_store hpath (by simp)
        queryString := terminated_of_store_zero (by omega) (hzero ▸ hquery) }⟩

/-- A message whose URL fits and is answered is completed to a well-formed one. -/
theorem parserUrl_spec {parseUrl : ParseUrl} (hinside : ReportsInside parseUrl) {m : HttpMessage}
    (hm : m.Building) (hfits : m.UrlFits) (hanswers : Answers parseUrl m.urlText) :
    ∃ m', parserUrl parseUrl m = .ok m' ∧ m'.WellFormed := by
  obtain ⟨url, hurl, hstr, hterm⟩ := buildUrl_spec hm.toWellFormed hfits
  obtain ⟨answer, hanswer⟩ := hanswers
  rw [← hstr] at hanswer
  cases answer with
  | none =>
    simp only [parserUrl, hurl, hanswer, bind, Except.bind]
    exact ⟨_, rfl, hm.toWellFormed⟩
  | some u =>
    -- each part ends inside the url, which ends inside its array
    have hparts : ∀ part, u.host = some part ∨ u.path = some part ∨ u.query = some part →
        part.2 < maxPathSize := fun part hpart => by
      have hend := hinside _ _ (hstr ▸ hfits.isHttpUrl) hanswer part hpart
      have hlt : url.str.length < maxPathSize := hterm
      omega
    obtain ⟨path, hpath, hpathTerm⟩ := storePath_spec hm.requestPath url.str _
      fun part hpart => hparts part (.inr (.inl hpart))
    simp only [parserUrl, hurl, hanswer, hpath, bind, Except.bind]
    exact storeQuery_spec
      (m := { m with
        port := u.port.getD 80
        host := u.host.map (urlPart url.str)
        requestPath := path })
      { hm.toWellFormed with requestPath := hpathTerm } hm.query_zero url.str
      fun part hpart => hparts part (.inr (.inr hpart))

/-- A URL that is not answered. -/
theorem parserUrl_of_not_answers {parseUrl : ParseUrl} {m : HttpMessage} (hm : m.WellFormed)
    (hfits : m.UrlFits) (hanswers : ¬Answers parseUrl m.urlText) :
    ∃ e, parserUrl parseUrl m = .error e := by
  obtain ⟨url, hurl, hstr, -⟩ := buildUrl_spec hm hfits
  rw [← hstr] at hanswers
  cases hanswer : parseUrl url.str with
  | error e =>
    refine ⟨e, ?_⟩
    simp only [parserUrl, hurl, hanswer, bind, Except.bind]
  | ok answer => exact absurd ⟨answer, hanswer⟩ hanswers

/-! ## Runs -/

/-- One callback that fits, in the order the parser makes them. -/
theorem callbackStep_spec {parseUrls : Nat → ParseUrl} (hinside : ∀ k, ReportsInside (parseUrls k))
    {s : ParserRun} (hs : RecordsSafe s) {c : Callback} (horder : ValueAfterField s c)
    (hfits : Fits s c) (hanswered : UrlAnswered parseUrls s c) :
    ∃ t, callbackStep parseUrls s c = .ok t ∧ RecordsSafe t := by
  cases hstopped : s.stopped with
  | true => exact ⟨s, by simp [callbackStep, hstopped], hs⟩
  | false =>
    have hf := hfits hstopped
    have hmessage := hs.message
    have hlist := hs.messageList
    -- a callback that only replaces the message under construction
    have hreplace : ∀ m : Except Fault HttpMessage, (∃ m', m = .ok m' ∧ m'.Building) →
        callback (parseUrls s.parserFlag.messageList.length) s.parserFlag c =
          (m >>= fun m' => .ok ({ s.parserFlag with message := m' }, 0)) →
        ∃ t, callbackStep parseUrls s c = .ok t ∧ RecordsSafe t := by
      rintro m ⟨m', rfl, hm'⟩ hcall
      simp only [callbackStep, hstopped, hcall, bind, Except.bind]
      exact ⟨_, rfl, hm', hlist⟩
    cases c with
    | messageBegin =>
      exact hreplace (.ok { s.parserFlag.message with messageBeginCbCalled := true })
        ⟨_, rfl, { hmessage with }⟩ rfl
    | requestUrl piece => exact hreplace _ (requestUrlCb_spec hmessage hf) rfl
    | responseStatus piece => exact hreplace _ (responseStatusCb_spec hmessage hf) rfl
    | headerField piece => exact hreplace _ (headerFieldCb_spec hmessage hf) rfl
    | headerValue piece => exact hreplace _ (headerValueCb_spec hmessage horder hf) rfl
    | headersComplete p =>
      exact hreplace (.ok (headersCompleteCb s.parserFlag.message p))
        ⟨_, rfl, { hmessage with }⟩ rfl
    | body p piece =>
      obtain ⟨f', hok, hbuilding, hsame⟩ := bodyCb_spec hmessage hf
      simp only [callbackStep, callback, hstopped, hok, bind, Except.bind]
      exact ⟨_, rfl, hbuilding, hsame ▸ hlist⟩
    | messageComplete p =>
      by_cases hconsistent : MessageConsistent s.parserFlag.message p
      -- the message moves to the list and a fresh one takes its place
      · obtain ⟨m', hok, hm'⟩ := parserUrl_spec (hinside _)
          (m := { s.parserFlag.message with
            messageCompleteCbCalled := true, messageCompleteOnEof := true })
          { hmessage with } (hf hconsistent) (hanswered hstopped hconsistent)
        simp only [callbackStep, callback, messageCompleteCb, hstopped, hconsistent, hok, bind,
          Except.bind, if_true]
        refine ⟨_, rfl, building_init, fun m hm => ?_⟩
        rcases List.mem_append.mp hm with hm | hm
        · exact hlist m hm
        · rwa [List.mem_singleton.mp hm]
      · simp only [callbackStep, callback, messageCompleteCb, hstopped, hconsistent, bind,
          Except.bind, if_false]
        exact ⟨_, rfl, hmessage, hlist⟩

/-- A callback that does not fit raises a fault. -/
theorem callbackStep_of_not_fits (parseUrls : Nat → ParseUrl) {s : ParserRun} (hs : RecordsSafe s)
    {c : Callback} (hfits : ¬ Fits s c) : ∃ e, callbackStep parseUrls s c = .error e := by
  obtain ⟨hstopped, hnot⟩ := Classical.not_imp.mp hfits
  have hm := hs.message
  -- one case for each callback: what does not fit is written outside its array
  cases c with
  | messageBegin => exact absurd trivial hnot
  | headersComplete p => exact absurd trivial hnot
  | requestUrl piece =>
    exact ⟨_, by
      simp only [callbackStep, callback, requestUrlCb, hstopped, strlncat_of_not_fits hnot, bind,
        Except.bind]
      rfl⟩
  | responseStatus piece =>
    exact ⟨_, by
      simp only [callbackStep, callback, responseStatusCb, hstopped, strlncat_of_not_fits hnot,
        bind, Except.bind]
      rfl⟩
  | body p piece =>
    exact ⟨_, by
      simp only [callbackStep, callback, bodyCb, hstopped, strlncat_of_not_fits hnot, bind,
        Except.bind]
      rfl⟩
  | headerField piece =>
    have hidx := fieldIndex_eq s.parserFlag.message
    by_cases hroom : s.parserFlag.message.fieldIndex < maxHeaders
    · obtain ⟨i, hfull⟩ := not_forall.mp fun h => hnot ⟨hroom, h⟩
      obtain ⟨hi, hlen⟩ := Classical.not_imp.mp hfull
      obtain ⟨j, hat, hj⟩ := headerAt_of_mem hm.fieldIndex_nonneg hroom
      have hij : j = i := Fin.ext (by omega)
      subst hij
      exact ⟨_, by
        simp only [callbackStep, callback, headerFieldCb, hstopped, hidx, hat,
          strlncat_of_not_fits hlen, bind, Except.bind]
        rfl⟩
    · exact ⟨_, by
        simp only [callbackStep, callback, headerFieldCb, hstopped, hidx, headerAt, hroom, and_false,
          dif_neg, not_false_eq_true, bind, Except.bind]
        rfl⟩
  | headerValue piece =>
    obtain ⟨i, hfull⟩ := not_forall.mp hnot
    obtain ⟨hi, hlen⟩ := Classical.not_imp.mp hfull
    obtain ⟨j, hat, hj⟩ := headerAt_of_mem (i := s.parserFlag.message.numHeaders - 1) (by omega)
      (by have := i.isLt; omega)
    have hij : j = i := Fin.ext (by omega)
    subst hij
    exact ⟨_, by
      simp only [callbackStep, callback, headerValueCb, hstopped, hat,
        strlncat_of_not_fits hlen, bind, Except.bind]
      rfl⟩
  | messageComplete p =>
    obtain ⟨hconsistent, hlen⟩ := Classical.not_imp.mp hnot
    have he := buildUrl_of_not_fits
      (m := { s.parserFlag.message with
        messageCompleteCbCalled := true, messageCompleteOnEof := true })
      { hm.toWellFormed with } hlen
    exact ⟨.outOfBounds, by
      simp only [callbackStep, callback, messageCompleteCb, parserUrl, hstopped, hconsistent, he,
        if_true, bind, Except.bind]
      rfl⟩

/-- A URL that fits but is not answered raises a fault. -/
theorem callbackStep_of_not_answered {parseUrls : Nat → ParseUrl} {s : ParserRun}
    (hs : RecordsSafe s) {c : Callback} (hfits : Fits s c) (hanswered : ¬UrlAnswered parseUrls s c) :
    ∃ e, callbackStep parseUrls s c = .error e := by
  obtain ⟨hstopped, hnot⟩ := Classical.not_imp.mp hanswered
  cases c with
  | messageComplete p =>
    obtain ⟨hconsistent, hnot⟩ := Classical.not_imp.mp hnot
    obtain ⟨e, he⟩ := parserUrl_of_not_answers
      (m := { s.parserFlag.message with
        messageCompleteCbCalled := true, messageCompleteOnEof := true })
      { hs.message.toWellFormed with } (hfits hstopped hconsistent) hnot
    exact ⟨e, by
      simp only [callbackStep, callback, messageCompleteCb, hstopped, hconsistent, he, if_true, bind,
        Except.bind]
      rfl⟩
  | messageBegin | headersComplete p | requestUrl piece | responseStatus piece | headerField piece
  | headerValue piece | body p piece => exact absurd trivial hnot

/-- **No input breaks the record**: every run of callbacks, in an order the parser makes
them in, that all fit and whose URLs are answered raises no fault, and every record it leaves is
well formed. -/
theorem callbacks_safe (parseUrls : Nat → ParseUrl) (hinside : ∀ k, ReportsInside (parseUrls k))
    (cs : List Callback)
    (horder : Along (callbackStep parseUrls) ValueAfterField .init cs)
    (hfits : Along (callbackStep parseUrls) Fits .init cs)
    (hanswered : Along (callbackStep parseUrls) (UrlAnswered parseUrls) .init cs) :
    ∃ s, run (callbackStep parseUrls) .init cs = .ok s ∧ s.parserFlag.message.WellFormed ∧
      ∀ m ∈ s.parserFlag.messageList, m.WellFormed := by
  obtain ⟨s, hrun, hs⟩ := run_ok
    (fun s c hs (hc : (ValueAfterField s c ∧ Fits s c) ∧ UrlAnswered parseUrls s c) =>
      callbackStep_spec hinside hs hc.1.1 hc.1.2 hc.2)
    recordsSafe_init ((horder.and hfits).and hanswered)
  exact ⟨s, hrun, hs.message.toWellFormed, hs.messageList⟩

/-- Calls that refuse every URL. -/
def refuseUrl : Nat → ParseUrl := fun _ _ => .ok none

theorem partsInside_refuseUrl (k : Nat) : PartsInside (refuseUrl k) where
  answers _ _ := ⟨none, rfl⟩
  inside _ _ _ h := nomatch Except.ok.inj h

theorem callbacks_safe_get :
    ∃ s, run (callbackStep refuseUrl) .init [.messageBegin, .requestUrl (ascii "/")] = .ok s ∧
      s.parserFlag.message.WellFormed ∧ ∀ m ∈ s.parserFlag.messageList, m.WellFormed := by
  refine callbacks_safe refuseUrl (fun k => (partsInside_refuseUrl k).inside) _ ?_ ?_
    ⟨fun _ => trivial, fun _ _ => ⟨fun _ => trivial, fun _ _ => trivial⟩⟩
  · exact ⟨trivial, fun _ _ => ⟨trivial, fun _ _ => trivial⟩⟩
  · refine ⟨fun _ => trivial, fun t ht => ⟨fun _ => ?_, fun _ _ => trivial⟩⟩
    cases ht
    change (CharArray.zero maxPathSize).str.length + (text (ascii "/")).length < maxPathSize
    rw [CharArray.str_zero]
    decide

/-- A request line with a URL of 1024 bytes fails the assertion of `strlncat`. -/
theorem callbacks_long_url_fault :
    ¬ ∀ (parseUrls : Nat → ParseUrl) (cs : List Callback), (∀ k, PartsInside (parseUrls k)) →
      Along (callbackStep parseUrls) ValueAfterField .init cs →
      ∃ s, run (callbackStep parseUrls) .init cs = .ok s ∧ s.parserFlag.message.WellFormed ∧
        ∀ m ∈ s.parserFlag.messageList, m.WellFormed := by
  intro hclaim
  obtain ⟨s, hrun, -⟩ := hclaim refuseUrl
    [.messageBegin, .requestUrl (List.replicate maxPathSize 97)] partsInside_refuseUrl
    ⟨trivial, fun _ _ => ⟨trivial, fun _ _ => trivial⟩⟩
  have htext : text (List.replicate maxPathSize 97) = List.replicate maxPathSize 97 :=
    text_eq_self fun c hc => by rw [List.eq_of_mem_replicate hc]; decide
  have hcat : strlncat (CharArray.zero maxPathSize) (List.replicate maxPathSize 97) =
      .error .assertion := strlncat_of_not_fits (by simp [htext])
  obtain ⟨t, hbegin, hrest⟩ := run_cons_eq_ok hrun
  cases hbegin
  obtain ⟨t', hurl, -⟩ := run_cons_eq_ok hrest
  simp only [callbackStep, callback, requestUrlCb, HttpMessage.init, ParserRun.init, hcat, bind,
    Except.bind] at hurl
  cases hurl

end Sails.Net
