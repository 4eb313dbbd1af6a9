import Sails.Net.Http.Fragments
import Sails.Library.TextReader

/-!
# What `parser_url` makes of the url

- `UrlForm`: a url by its components, with the fields a parser reports for it
- `parserUrl_splits_iff`: the record gets the components exactly unless the query cuts the path
-/

namespace Sails.Net

open TransitionRun (Fault)
open CMemory

/-! ## Urls by their components -/

/-- The components of `http://host:port/path?query#fragment`. -/
structure UrlForm where
  host : Bytes
  /-- the host is an address in brackets -/
  bracketed : Bool
  /-- the digits of the port -/
  port : Option Bytes
  path : Bytes
  query : Option Bytes
  fragment : Option Bytes
  host_ne_nil : host ≠ []
  path_slash : path.head? = some 47

namespace UrlForm

variable (form : UrlForm)

/-- The text of the `Host` header. -/
def authority : Bytes :=
  (if form.bracketed then ascii "[" else []) ++ form.host ++
    ((if form.bracketed then ascii "]" else []) ++ (form.port.map (ascii ":" ++ ·)).getD [])

/-- The text of the query, empty if there is none. -/
def queryText : Bytes := form.query.getD []

/-- What follows the path. -/
def behindPath : Bytes :=
  (form.query.map (ascii "?" ++ ·)).getD [] ++ (form.fragment.map (ascii "#" ++ ·)).getD []

/-- The text of the request's url. -/
def target : Bytes := form.path ++ form.behindPath

def text : Bytes := ascii "http://" ++ form.authority ++ form.target

/-- The given port or 80. -/
def portNumber : Nat := (form.port.bind TextReader.readDecimal).getD 80

/-- The fields of `http_parser_parse_url`: offsets and lengths of the components; an empty query has
no field. -/
def layout : HttpParserUrl where
  port := form.port.bind TextReader.readDecimal
  host := some ((ascii "http://" ++ if form.bracketed then ascii "[" else []).length,
    form.host.length)
  path := some ((ascii "http://" ++ form.authority).length, form.path.length)
  query :=
    if form.queryText = [] then none
    else some ((ascii "http://" ++ form.authority ++ form.path ++ ascii "?").length,
      form.queryText.length)

end UrlForm

/-- A component is read where it stands. -/
theorem urlPart_append (before part behind : Bytes) :
    urlPart (before ++ part ++ behind) (before.length, part.length) = part := by
  rw [urlPart, List.append_assoc, List.drop_left, List.take_left]

namespace UrlForm

variable (form : UrlForm)

theorem urlPart_host :
    form.layout.host.map (urlPart form.text) = some form.host := by
  have htext : form.text = (ascii "http://" ++ if form.bracketed then ascii "[" else []) ++
      form.host ++ ((if form.bracketed then ascii "]" else []) ++
        (form.port.map (ascii ":" ++ ·)).getD [] ++ form.target) := by
    simp only [text, authority, List.append_assoc]
  rw [htext]
  exact congrArg some (urlPart_append ..)

theorem urlPart_path :
    urlPart form.text ((ascii "http://" ++ form.authority).length, form.path.length) =
      form.path := by
  have htext : form.text = ascii "http://" ++ form.authority ++ form.path ++ form.behindPath := by
    simp only [text, target, List.append_assoc]
  rw [htext]
  exact urlPart_append ..

theorem urlPart_query (h : form.queryText ≠ []) :
    urlPart form.text ((ascii "http://" ++ form.authority ++ form.path ++ ascii "?").length,
      form.queryText.length) = form.queryText := by
  cases hquery : form.query with
  | none => exact absurd (by rw [queryText, hquery]; rfl) h
  | some query =>
    have htext : form.text = ascii "http://" ++ form.authority ++ form.path ++ ascii "?" ++
        form.queryText ++ (form.fragment.map (ascii "#" ++ ·)).getD [] := by
      simp only [text, target, behindPath, queryText, hquery, Option.map_some, Option.getD_some,
        List.append_assoc]
    rw [htext]
    exact urlPart_append ..

end UrlForm

/-! ## Storing the components -/

/-- A NUL at position `k` cuts the string there. -/
theorem str_of_store_zero {n : Nat} {a a' : CharArray n} {k : Nat} (h : a.store k [0] = .ok a')
    (ha : a.Terminated) : a'.str = a.str.take k := by
  simp only [CharArray.store] at h
  split at h
  · rename_i hk
    cases h
    obtain ⟨r, hr⟩ := eq_text_append_of_lt (l := a.bytes) (by rw [a.length_bytes]; exact ha)
    -- the text of an array ends at its first NUL
    have hpre : ∀ c ∈ text a.bytes, c ≠ 0 := fun c hc => ne_zero_of_mem_text hc
    change text (splice a.bytes k [0]) = (text a.bytes).take k
    rcases Nat.lt_or_ge (text a.bytes).length k with hlt | hge
    -- behind the string's own NUL
    · obtain ⟨j, hj⟩ : ∃ j, k = (text a.bytes).length + 1 + j := ⟨_, (Nat.add_sub_cancel' hlt).symm⟩
      have htake : a.bytes.take k = text a.bytes ++ 0 :: r.take j := by
        conv_lhs => rw [hr, hj]
        rw [Nat.add_assoc, List.take_append, List.take_of_length_le (by omega),
          Nat.add_sub_cancel_left, Nat.add_comm 1, List.take_succ_cons]
      rw [splice, htake, List.append_assoc, List.append_assoc, List.cons_append,
        text_append_zero hpre, List.take_of_length_le hlt.le]
    -- inside the text the new NUL is the first
    · have htake : a.bytes.take k = (text a.bytes).take k := by
        conv_lhs => rw [hr, List.take_append_of_le_length hge]
      rw [splice, htake, List.append_assoc, List.singleton_append]
      exact text_append_zero (fun c hc => hpre c (List.mem_of_mem_take hc)) _
  · cases h

/-- Bytes stored at the front without a NUL are followed by the old string from there on. -/
theorem str_of_store_front {n : Nat} {a a' : CharArray n} {s : Bytes} (h : a.store 0 s = .ok a')
    (hs : ∀ c ∈ s, c ≠ 0) : a'.str = s ++ text (a.bytes.drop s.length) := by
  simp only [CharArray.store] at h
  split at h
  · cases h
    have hmem : 0 ∉ s := fun h0 => hs 0 h0 rfl
    change text (splice a.bytes 0 s) = _
    rw [splice, List.take_zero, List.nil_append, Nat.zero_add, text_append, if_neg hmem]
  · cases h

/-- `storePath` of a component: the path is the string of `request_path`. -/
theorem storePath_str {requestPath : CharArray maxPathSize} (hpath : requestPath.Terminated)
    (url : Bytes) (part : Nat × Nat) (hpart : part.2 < maxPathSize)
    (hurl : ∀ c ∈ urlPart url part, c ≠ 0) :
    ∃ a, storePath requestPath url (some part) = .ok a ∧ a.str = urlPart url part ∧
      a.Terminated := by
  have hlt : requestPath.str.length < maxPathSize := hpath
  have hle := length_urlPart_le url part
  obtain ⟨cleared, hcleared, -⟩ := CharArray.store_eq_ok requestPath 0
    (List.replicate requestPath.str.length 0) (by simp; omega)
  obtain ⟨a, hstore, -⟩ := CharArray.store_eq_ok cleared 0 (urlPart url part ++ [0])
    (by simp; omega)
  have hstr := CharArray.str_of_store hstore (Nat.zero_le _) (by simp) hurl
  rw [List.take_zero, List.nil_append] at hstr
  refine ⟨a, ?_, hstr.1, hstr.2⟩
  simp only [storePath, CharArray.strlen_bytes hpath, hcleared, bind, Except.bind]
  exact hstore

/-- `storeQuery` of a component: the path is cut where the query ends. -/
theorem storeQuery_str {m : HttpMessage} (hpath : m.requestPath.Terminated) (url : Bytes)
    (part : Nat × Nat) (hpart : part.2 < maxPathSize) (hurl : ∀ c ∈ urlPart url part, c ≠ 0) :
    ∃ m', storeQuery m url (some part) = .ok m' ∧ m'.host = m.host ∧ m'.port = m.port ∧
      m'.requestPath.str = m.requestPath.str.take part.2 ∧
      m'.queryString.str =
        urlPart url part ++ text (m.queryString.bytes.drop (urlPart url part).length) := by
  have hle := length_urlPart_le url part
  have hsize : maxPathSize < maxElementSize := by decide
  obtain ⟨query, hquery, -⟩ := CharArray.store_eq_ok m.queryString 0 (urlPart url part) (by omega)
  obtain ⟨path, hstore, -⟩ := CharArray.store_eq_ok m.requestPath part.2 [0] (by simp; omega)
  refine ⟨{ m with requestPath := path, queryString := query }, ?_, rfl, rfl,
    str_of_store_zero hstore hpath, str_of_store_front hquery hurl⟩
  simp only [storeQuery, hquery, hstore, bind, Except.bind]

/-! ## The split -/

/-- The record holds the components of the url. -/
structure SplitsExactly (form : UrlForm) (m : HttpMessage) : Prop where
  requestPath : m.requestPath.str = form.path
  queryString : m.queryString.str = form.queryText
  host : m.host = some form.host
  port : m.port = form.portNumber

/-- The query does not end inside the path, and `query_string` is still NUL where it ends. -/
def QueryKeepsPath (form : UrlForm) (m : HttpMessage) : Prop :=
  (form.queryText = [] ∨ form.path.length ≤ form.queryText.length) ∧
    m.queryString.bytes[form.queryText.length]? = some 0

/-- In a message under construction `query_string` is NUL. -/
theorem HttpMessage.Building.queryKeepsPath_iff {m : HttpMessage} (hm : m.Building) {form : UrlForm}
    (hlength : form.queryText.length < maxElementSize) :
    QueryKeepsPath form m ↔
      form.queryText = [] ∨ form.path.length ≤ form.queryText.length := by
  have hzero : m.queryString.bytes[form.queryText.length]? = some 0 := by
    rw [hm.query_zero]
    simp [CharArray.zero, hlength]
  exact and_iff_left hzero

/-- The text of a string ends at once exactly when it begins with NUL. -/
theorem text_drop_eq_nil_iff {l : Bytes} {k : Nat} (hk : k < l.length) :
    text (l.drop k) = [] ↔ l[k]? = some 0 := by
  rw [List.drop_eq_getElem_cons hk, List.getElem?_eq_getElem hk, Option.some_inj]
  by_cases hzero : l[k] = 0
  · simp [hzero]
  · rw [text_cons_of_ne hzero]
    exact ⟨fun hnil => (List.cons_ne_nil _ _ hnil).elim, fun h0 => absurd h0 hzero⟩

theorem ne_zero_of_mem_urlPart {url : CharArray maxPathSize} {part : Nat × Nat} {c : UInt8}
    (hc : c ∈ urlPart url.str part) : c ≠ 0 :=
  ne_zero_of_mem_text (List.mem_of_mem_drop (List.mem_of_mem_take hc))

/-- A path as long as what is left of it. -/
theorem take_eq_self_iff {path : Bytes} {k : Nat} : path.take k = path ↔ path.length ≤ k := by
  constructor
  · intro h
    have hlen := congrArg List.length h
    rw [List.length_take] at hlen
    omega
  · exact List.take_of_length_le

theorem UrlForm.length_lt {form : UrlForm} {n : Nat} (h : form.text.length < n) :
    form.path.length < n ∧ form.queryText.length < n := by
  have hquery : form.queryText.length ≤ form.behindPath.length := by
    cases hquery : form.query with
    | none => simp [queryText, hquery]
    | some query =>
      simp only [queryText, behindPath, hquery, Option.map_some, Option.getD_some,
        List.length_append]
      omega
  simp only [text, target, List.length_append] at h
  omega

/-- The host, the port and the path are stored; the query is left to do. -/
theorem parserUrl_eq {parseUrl : ParseUrl} {m : HttpMessage} {form : UrlForm} (hm : m.WellFormed)
    (hhost : m.hostValue = form.authority) (hurl : m.requestUrl.str = form.target)
    (hfits : form.text.length < maxPathSize)
    (hreports : parseUrl form.text = .ok (some form.layout)) :
    ∃ (url path : CharArray maxPathSize), url.str = form.text ∧ path.str = form.path ∧
      path.Terminated ∧ parserUrl parseUrl m = storeQuery { m with
        port := form.portNumber
        host := some form.host
        requestPath := path } url.str form.layout.query := by
  -- the url fits into its array, and is what the form says
  have hroom : m.UrlFits := by
    rw [UrlForm.text, List.length_append, List.length_append, length_http] at hfits
    rwa [HttpMessage.UrlFits, hhost, hurl]
  obtain ⟨url, hbuild, hstr, -⟩ := buildUrl_spec hm hroom
  have htext : url.str = form.text := by
    rw [hstr, HttpMessage.urlText, hhost, hurl, UrlForm.text]
  obtain ⟨path, hpath, hpathStr, hterm⟩ := storePath_str hm.requestPath url.str
    ((ascii "http://" ++ form.authority).length, form.path.length)
    (UrlForm.length_lt hfits).1 fun c hc => ne_zero_of_mem_urlPart hc
  rw [htext, form.urlPart_path] at hpathStr
  refine ⟨url, path, htext, hpathStr, hterm, ?_⟩
  have hreports' : parseUrl url.str = .ok (some form.layout) := by rw [htext, hreports]
  have hpath' : storePath m.requestPath url.str form.layout.path = .ok path := hpath
  have hhost' : form.layout.host.map (urlPart url.str) = some form.host := by
    rw [htext, form.urlPart_host]
  simp only [parserUrl, hbuild, hreports', hpath', hhost', bind, Except.bind]
  rfl

/-- **Splitting**: for a url that fits the record gets exactly its components if and only if the
query does not end inside the path (and `query_string` was still NUL there). -/
theorem parserUrl_splits_iff {parseUrl : ParseUrl} {m : HttpMessage} {form : UrlForm}
    (hm : m.WellFormed) (hhost : m.hostValue = form.authority)
    (hurl : m.requestUrl.str = form.target) (hfits : form.text.length < maxPathSize)
    (hreports : parseUrl form.text = .ok (some form.layout)) :
    ∃ m', parserUrl parseUrl m = .ok m' ∧ (SplitsExactly form m' ↔ QueryKeepsPath form m) := by
  obtain ⟨url, path, htext, hpathStr, hterm, hparse⟩ := parserUrl_eq hm hhost hurl hfits hreports
  have hlt : form.queryText.length < maxPathSize := (UrlForm.length_lt hfits).2
  have hbytes : m.queryString.bytes.length = maxElementSize := m.queryString.length_bytes
  have hsize : maxPathSize < maxElementSize := by decide
  -- behind the query the old string shows, unless there is a NUL
  have hnul := text_drop_eq_nil_iff (l := m.queryString.bytes) (k := form.queryText.length)
    (by omega)
  rw [hparse]
  by_cases hquery : form.queryText = []
  -- without a query `query_string` is left as it was
  · have hlayout : form.layout.query = none := if_pos hquery
    refine ⟨_, by rw [hlayout]; rfl, ?_⟩
    rw [hquery, List.length_nil, List.drop_zero] at hnul
    rw [QueryKeepsPath, hquery, List.length_nil]
    constructor
    · intro h
      exact ⟨.inl rfl, hnul.mp (h.queryString.trans hquery)⟩
    · rintro ⟨-, hzero⟩
      exact ⟨hpathStr, (hnul.mpr hzero).trans hquery.symm, rfl, rfl⟩
  -- with one, the path is cut at the length of the query
  · have hlayout : form.layout.query =
        some ((ascii "http://" ++ form.authority ++ form.path ++ ascii "?").length,
          form.queryText.length) := if_neg hquery
    obtain ⟨m', hok, hhost', hport', hpath', hquery'⟩ := storeQuery_str (m := { m with
        port := form.portNumber
        host := some form.host
        requestPath := path }) hterm url.str ((ascii "http://" ++ form.authority ++
          form.path ++ ascii "?").length, form.queryText.length) hlt
      fun c hc => ne_zero_of_mem_urlPart hc
    rw [htext, form.urlPart_query hquery] at hquery'
    rw [hpathStr] at hpath'
    refine ⟨m', by rw [hlayout]; exact hok, ?_⟩
    constructor
    · intro h
      have hcut := take_eq_self_iff.mp (hpath'.symm.trans h.requestPath)
      have hnil := List.append_right_eq_self.mp (hquery'.symm.trans h.queryString)
      exact ⟨.inr hcut, hnul.mp hnil⟩
    · rintro ⟨hcut, hzero⟩
      have hle : form.path.length ≤ form.queryText.length := hcut.resolve_left hquery
      exact ⟨hpath'.trans (take_eq_self_iff.mpr hle),
        hquery'.trans (List.append_right_eq_self.mpr (hnul.mpr hzero)), hhost', hport'⟩

/-! ## The host of a message -/

/-- The value of the first header of this name, empty if there is none. -/
def firstValue (name : Bytes) (headers : List (Bytes × Bytes)) : Bytes :=
  ((headers.find? fun h => h.1 = name).map Prod.snd).getD []

theorem firstValue_cons (name : Bytes) (h : Bytes × Bytes) (headers : List (Bytes × Bytes)) :
    firstValue name (h :: headers) = if h.1 = name then h.2 else firstValue name headers := by
  by_cases hname : h.1 = name <;> simp [firstValue, hname]

/-- The search from header `i` on, on a record that holds a list of headers. -/
theorem findHost_headerTable {hs : List (Bytes × Bytes)}
    (htexts : ∀ h ∈ hs, IsText maxElementSize h.1 ∧ IsText maxElementSize h.2)
    (hle : hs.length ≤ maxHeaders) {i remaining : Nat} (hi : i + remaining = hs.length) :
    (match findHost (headerTable hs) i remaining with
      | .ok (some j) => (headerTable hs j).value.str
      | _ => []) = firstValue (ascii "Host") (hs.drop i) := by
  -- by induction on the headers that are left
  induction remaining generalizing i with
  | zero =>
    rw [List.drop_of_length_le (by omega)]
    rfl
  | succ remaining ih =>
    have hlt : i < hs.length := by omega
    have hmax : i < maxHeaders := by omega
    obtain ⟨hname, hvalue⟩ := htexts (hs.get ⟨i, hlt⟩) (List.get_mem ..)
    have hplace : headerTable hs ⟨i, hmax⟩ =
        ⟨.ofBytes _ (hs.get ⟨i, hlt⟩).1, .ofBytes _ (hs.get ⟨i, hlt⟩).2⟩ :=
      headerTable_of_getElem? (List.getElem?_eq_getElem hlt)
    have hdrop : hs.drop i = hs.get ⟨i, hlt⟩ :: hs.drop (i + 1) := List.drop_eq_getElem_cons hlt
    rw [hdrop, firstValue_cons, findHost, dif_pos hmax]
    by_cases hhost : (hs.get ⟨i, hlt⟩).1 = ascii "Host"
    · have hstr : (headerTable hs ⟨i, hmax⟩).name.str = ascii "Host" := by
        rw [hplace, CharArray.str_ofBytes hname.1 hname.2, hhost]
      rw [if_pos hstr, if_pos hhost]
      simp only [hplace, CharArray.str_ofBytes hvalue.1 hvalue.2]
    · have hstr : (headerTable hs ⟨i, hmax⟩).name.str ≠ ascii "Host" := by
        rwa [hplace, CharArray.str_ofBytes hname.1 hname.2]
      rw [if_neg hstr, if_neg hhost]
      exact ih (by omega)

theorem Message.hostValue_received (msg : Message) :
    msg.received.hostValue = firstValue (ascii "Host") msg.headerTexts := by
  have htexts : ∀ h ∈ msg.headerTexts, IsText maxElementSize h.1 ∧ IsText maxElementSize h.2 := by
    intro h hh
    obtain ⟨h, -, rfl⟩ := List.mem_map.mp hh
    exact ⟨h.1.isText, h.2.isText⟩
  have hle : msg.headerTexts.length ≤ maxHeaders := by
    rw [msg.length_headerTexts]
    exact msg.headers_le
  have hfind := findHost_headerTable htexts hle (i := 0) (Nat.zero_add _)
  rw [List.drop_zero] at hfind
  exact hfind

/-! ## Instances -/

theorem isText_h : IsText maxElementSize (ascii "h") := by decide

theorem isText_noBody : IsText maxBodySize [] := by decide

theorem hostH_lt {name : Text maxElementSize} {url : Text maxPathSize}
    (hurl : url.bytes.length < 900) :
    ∀ h ∈ [(name, (⟨ascii "h", isText_h⟩ : Text maxElementSize))],
      h.1.bytes = ascii "Host" → url.bytes.length + h.2.bytes.length < 1000 := by
  intro h hh _
  rw [List.mem_singleton.mp hh]
  change url.bytes.length + 1 < 1000
  omega

/-- A `GET` of this url from host `h`. -/
def getMessage (name : Text maxElementSize) (url : Text maxPathSize)
    (hurl : url.bytes.length < 900) : Message where
  url := url
  headers := [(name, ⟨ascii "h", isText_h⟩)]
  body := ⟨[], isText_noBody⟩
  answers := ⟨1, 0, 1, 1, 1, 0⟩
  headers_le := Nat.le_add_left 1 12
  url_lt := Nat.lt_of_lt_of_le hurl (Nat.le_add_right 900 100)
  host_lt := hostH_lt hurl

/-- `http://h` with a path and a query. -/
def formOf (path query : Bytes) (hpath : path.head? = some 47) : UrlForm where
  host := ascii "h"
  bracketed := false
  port := none
  path := path
  query := some query
  fragment := none
  host_ne_nil := by decide
  path_slash := hpath

/-- A parser that knows one url. -/
def parserOf (form : UrlForm) : ParseUrl := fun url =>
  .ok (if url = form.text then some form.layout else none)

theorem parserUrl_splits_a : ∃ m', parserUrl (parserOf (formOf (ascii "/a") (ascii "bc") rfl))
      (getMessage ⟨ascii "Host", by decide⟩ ⟨ascii "/a?bc", by decide⟩ (by decide)).received = .ok m' ∧
    (SplitsExactly (formOf (ascii "/a") (ascii "bc") rfl) m' ↔
      QueryKeepsPath (formOf (ascii "/a") (ascii "bc") rfl)
        (getMessage ⟨ascii "Host", by decide⟩ ⟨ascii "/a?bc", by decide⟩ (by decide)).received) := by
  refine parserUrl_splits_iff (Message.building_received _).toWellFormed ?_ ?_ (by decide)
    (congrArg Except.ok (if_pos rfl))
  · rw [Message.hostValue_received]
    decide
  · exact Text.str_ofBytes _

/-- The path `/ab` with the query `c` is cut to `/`. -/
theorem parserUrl_cuts_path : ∃ m', parserUrl (parserOf (formOf (ascii "/ab") (ascii "c") rfl))
      (getMessage ⟨ascii "Host", by decide⟩ ⟨ascii "/ab?c", by decide⟩ (by decide)).received = .ok m' ∧
    m'.requestPath.str = ascii "/" ∧ ¬SplitsExactly (formOf (ascii "/ab") (ascii "c") rfl) m' := by
  have hpath : (parserUrl (parserOf (formOf (ascii "/ab") (ascii "c") rfl))
      (getMessage ⟨ascii "Host", by decide⟩ ⟨ascii "/ab?c", by decide⟩ (by decide)).received).map
      (fun m => m.requestPath.str) = .ok (ascii "/") := by decide +kernel
  cases hok : parserUrl (parserOf (formOf (ascii "/ab") (ascii "c") rfl))
      (getMessage ⟨ascii "Host", by decide⟩ ⟨ascii "/ab?c", by decide⟩ (by decide)).received with
  | error fault =>
    rw [hok] at hpath
    cases hpath
  | ok m' =>
    rw [hok] at hpath
    have hcut : m'.requestPath.str = ascii "/" := Except.ok.inj hpath
    refine ⟨m', rfl, hcut, fun h => ?_⟩
    rw [h.requestPath] at hcut
    exact absurd hcut (by decide)

end Sails.Net
