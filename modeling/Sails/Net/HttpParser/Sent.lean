import Sails.Net.Http.Request
import Sails.Net.HttpParser.Records

/-!
# From one record to another

What `HttpRequest::ToString` makes of a request, sent in any segments, and what the server receives.

- `digitsFrom_decimal`, `readLength_decimal`: numbers as they are printed
- `exists_headerLines`: the headers as they are printed
- `framed_setBody`: after `SetBody` the headers announce the body
- `Receivable`: what the parser asks of a request
- `exists_plainRequest`: the text of a request, as the parser reads it
- `sent_received`: the record that arrives
-/

namespace Sails.HttpParser

open TransitionRun
open CMemory
open Sails.Net.Request (WithinLine)
open Sails.Net (Callback ParseUrl ParserRun HttpMessage IsText Request RequestCall
  callbackStep headerTable maxHeaders maxElementSize maxBodySize)

/-! ## Numbers -/

section Numbers

variable {n v : Nat} {ds : Bytes}

theorem isNum_of_mem_decimal {c : UInt8} (h : c ∈ decimal n) : isNum c = true := by
  have hrange := mem_decimal h
  simp only [isNum, Bool.and_eq_true, decide_eq_true_eq]
  exact hrange

theorem decimal_ne_nil (n : Nat) : decimal n ≠ [] := by
  rw [decimal, ne_eq, List.map_eq_nil_iff]
  exact Nat.toDigits_ne_nil

theorem digitsFrom_decimal (n : Nat) : digitsFrom 0 (decimal n) = n := by
  have hread := TextReader.readDecimal_decimal n
  rw [TextReader.readDecimal] at hread
  split at hread
  · have hstep : (fun v d => v * 10 + digit d) = fun (n : Nat) (c : UInt8) => 10 * n + (c.toNat - 48) := by
      funext v d
      rw [digit, Nat.mul_comm]
    rw [digitsFrom, hstep]
    exact Option.some.inj hread
  · cases hread

theorem digitsFrom_lt (hds : ∀ d ∈ ds, isNum d = true) (v : Nat) :
    digitsFrom v ds < (v + 1) * 10 ^ ds.length := by
  induction ds generalizing v with
  | nil => simp [digitsFrom]
  | cons d ds ih =>
    have hd := digit_lt (hds d (List.mem_cons_self ..))
    have hrest := ih (fun x hx => hds x (List.mem_cons_of_mem _ hx)) (v * 10 + digit d)
    rw [digitsFrom, List.foldl_cons, List.length_cons, pow_succ']
    calc digitsFrom (v * 10 + digit d) ds < (v * 10 + digit d + 1) * 10 ^ ds.length := hrest
      _ ≤ ((v + 1) * 10) * 10 ^ ds.length := Nat.mul_le_mul_right _ (by omega)
      _ = (v + 1) * (10 * 10 ^ ds.length) := Nat.mul_assoc ..

/-- A number that is printed does not begin with 0. -/
theorem decimal_first (hn : 0 < n) : ∃ d ds, decimal n = d :: ds ∧ code '1' ≤ d := by
  obtain ⟨d, ds, hcons⟩ := List.exists_cons_of_ne_nil (decimal_ne_nil n)
  refine ⟨d, ds, hcons, ?_⟩
  have hmem : ∀ x ∈ d :: ds, isNum x = true := fun x hx => isNum_of_mem_decimal (hcons ▸ hx)
  have hvalue : digitsFrom (digit d) ds = n := by
    rw [← digitsFrom_zero_cons, ← hcons, digitsFrom_decimal]
  by_contra hlow
  have hzero : digit d = 0 := by
    have hlow' : d.toNat < 49 := UInt8.lt_iff_toNat_lt.mp (UInt8.not_le.mp hlow)
    rw [digit]
    omega
  -- with a leading 0 there is one digit too many
  have hlt := digitsFrom_lt (fun x hx => hmem x (List.mem_cons_of_mem _ hx)) 0
  rw [hzero] at hvalue
  rw [hvalue, Nat.zero_add, Nat.one_mul] at hlt
  have hpos : 0 < ds.length := by
    rcases ds with _ | ⟨e, es⟩
    · exact absurd hvalue (by simp [digitsFrom]; omega)
    · simp
  have hlen := length_decimal_le hpos hlt
  rw [hcons, List.length_cons] at hlen
  omega

/-- Digits are read as the number they stand for, if it is not too large. -/
theorem readLength_digits (hds : ∀ d ∈ ds, isNum d = true) (hv : digitsFrom v ds ≤ ullongMax - 10) :
    ds.foldlM lengthStep v = some (digitsFrom v ds) := by
  induction ds generalizing v with
  | nil => rfl
  | cons d ds ih =>
    have hd := hds d (List.mem_cons_self ..)
    have hspace : d ≠ code ' ' := by rintro rfl; revert hd; decide
    rw [digitsFrom, List.foldl_cons] at hv ⊢
    have hle : v * 10 + digit d ≤ ullongMax - 10 := (le_digitsFrom _ ds).trans hv
    have hroom : ¬ (ullongMax - 10) / 10 < v := by omega
    have hstep : lengthStep v d = some (v * 10 + digit d) := by
      rw [lengthStep, if_neg hspace, if_neg (by simp [hd]), if_neg hroom]
    rw [List.foldlM_cons, hstep]
    exact ih (fun x hx => hds x (List.mem_cons_of_mem _ hx)) hv

theorem readLength_decimal (hn : n ≤ ullongMax - 10) : readLength (decimal n) = some n := by
  obtain ⟨d, ds, hcons⟩ := List.exists_cons_of_ne_nil (decimal_ne_nil n)
  have hmem : ∀ x ∈ d :: ds, isNum x = true := fun x hx => isNum_of_mem_decimal (hcons ▸ hx)
  have hvalue : digitsFrom (digit d) ds = n := by
    rw [← digitsFrom_zero_cons, ← hcons, digitsFrom_decimal]
  rw [hcons, readLength, if_pos (hmem d (List.mem_cons_self ..)),
    readLength_digits (fun x hx => hmem x (List.mem_cons_of_mem _ hx)) (by rw [hvalue]; exact hn),
    hvalue]

end Numbers

/-- A version as it is printed. -/
theorem exists_version {major minor : Nat} (hpos : 0 < major) (hmajor : major ≤ 999)
    (hminor : minor ≤ 999) :
    ∃ v : Version, v.major = decimal major ∧ v.minor = decimal minor :=
  ⟨{ major := decimal major
     minor := decimal minor
     major_digits := fun _ hd => isNum_of_mem_decimal hd
     minor_digits := fun _ hd => isNum_of_mem_decimal hd
     major_first := decimal_first hpos
     minor_ne_nil := decimal_ne_nil minor
     major_le := (digitsFrom_decimal major).le.trans hmajor
     minor_le := (digitsFrom_decimal minor).le.trans hminor }, rfl, rfl⟩

/-! ## Headers -/

/-- A value without the blanks in front of it. -/
def stripped (value : Bytes) : Bytes := value.dropWhile fun c => decide (IsWs c)

/-- What headers announce, by their names and values. -/
def announcedBy (hs : List (Bytes × Bytes)) (a : Flags × Nat) : Option (Flags × Nat) :=
  hs.foldlM (fun a h => announce h.1 (stripped h.2) a) a

/-- A header as it is printed. -/
theorem exists_headerLine {h : Bytes × Bytes} (hname : FieldName h.1) (hvalue : WithinLine h.2) :
    ∃ l : HeaderLine, l.name = h.1 ∧ l.value = stripped h.2 ∧ l.text = Net.Outgoing.headerLine h := by
  have hmem : ∀ c ∈ stripped h.2, c ∈ h.2 := fun c hc => (List.dropWhile_sublist _).mem hc
  refine ⟨{
    name := h.1
    ws := h.2.takeWhile fun c => decide (IsWs c)
    value := stripped h.2
    name_ok := hname
    ws_ok := fun c hc => by simpa using List.mem_takeWhile_imp hc
    value_first := fun c hc => ?_
    value_ok := fun c hc => hvalue c (hmem c hc) }, rfl, rfl, ?_⟩
  · have hnot := List.head?_dropWhile_not (fun c => decide (IsWs c)) h.2
    rw [show (h.2.dropWhile fun c => decide (IsWs c)).head? = some c from hc] at hnot
    simpa using hnot
  · have hsplit : (h.2.takeWhile fun c => decide (IsWs c)) ++ stripped h.2 = h.2 :=
      List.takeWhile_append_dropWhile
    simp only [HeaderLine.text, Net.Outgoing.headerLine]
    rw [List.append_assoc, List.append_assoc, ← List.append_assoc (h.2.takeWhile _), hsplit]
    exact (List.append_assoc h.1 (58 :: h.2) Net.crlf).symm

theorem exists_headerLines {hs : List (Bytes × Bytes)}
    (h : ∀ x ∈ hs, FieldName x.1 ∧ WithinLine x.2) :
    ∃ ls : List HeaderLine, ls.map (fun l => (l.name, l.value)) = hs.map (fun x => (x.1, stripped x.2)) ∧
      headersText ls = hs.flatMap Net.Outgoing.headerLine := by
  induction hs with
  | nil => exact ⟨[], rfl, rfl⟩
  | cons x hs ih =>
    obtain ⟨hname, hvalue⟩ := h x (List.mem_cons_self ..)
    obtain ⟨l, hl, hv, htext⟩ := exists_headerLine hname hvalue
    obtain ⟨ls, hls, htexts⟩ := ih fun y hy => h y (List.mem_cons_of_mem _ hy)
    refine ⟨l :: ls, by rw [List.map_cons, List.map_cons, hl, hv, hls], ?_⟩
    rw [headersText, List.flatMap_cons, htext, List.flatMap_cons, ← htexts, headersText]

/-- Headers announce what their names and values do. -/
theorem announced_eq {ls : List HeaderLine} {hs : List (Bytes × Bytes)}
    (h : ls.map (fun l => (l.name, l.value)) = hs.map fun x => (x.1, stripped x.2))
    (a : Flags × Nat) : announced ls a = announcedBy hs a := by
  have hleft : announced ls a =
      (ls.map fun l => (l.name, l.value)).foldlM (fun a x => announce x.1 x.2 a) a := by
    rw [List.foldlM_map]
    rfl
  rw [hleft, h, List.foldlM_map]
  rfl

/-! ## A request -/

/-- The headers announce the body as it is sent. -/
def Framed (r : Request) : Prop :=
  ∃ f l, announcedBy r.headers (.zero, ullongMax) = some (f, l) ∧
    if f.upgrade then r.body = []
    else f.chunked = false ∧ (l = r.body.length ∨ l = ullongMax ∧ r.body = [])

/-- Letter case makes no difference to what the parser makes of a name. -/
theorem nameKind_of_sameName {a b : Bytes} (h : SameName a b) : nameKind a = nameKind b := by
  have htoken : ∀ c, token (toLower c) = token c := forall_byte (by decide +kernel)
  have hblank : ∀ c, isBlank (toLower c) = isBlank c := forall_byte (by decide +kernel)
  have hname (n : KnownName) : IsName n a ↔ IsName n b := by
    have ha : IsName n (a.map toLower) ↔ IsName n a := WordMatch.isWord_map htoken hblank
    have hb : IsName n (b.map toLower) ↔ IsName n b := WordMatch.isWord_map htoken hblank
    rw [← ha, ← hb, h]
  simp only [nameKind, hname]

/-- The header says nothing about the body, or gives this length. -/
def Gives (n : Nat) (h : Bytes × Bytes) : Prop :=
  nameKind h.1 = .general ∨ nameKind h.1 = .connection ∨
    nameKind h.1 = .contentLength ∧ h.2 = decimal n

theorem stripped_decimal (n : Nat) : stripped (decimal n) = decimal n := by
  obtain ⟨d, ds, hcons⟩ := List.exists_cons_of_ne_nil (decimal_ne_nil n)
  have hd : isNum d = true := isNum_of_mem_decimal (hcons ▸ List.mem_cons_self ..)
  have hnot : ¬IsWs d := by
    revert hd
    exact forall_byte (P := fun d => isNum d = true → ¬IsWs d) (by decide +kernel) d
  rw [hcons, stripped, List.dropWhile_cons_of_neg (by simpa using hnot)]

/-- Headers that give one length announce a body of that length or none. -/
theorem announcedBy_of_gives {n : Nat} (hn : n ≤ ullongMax - 10) {hs : List (Bytes × Bytes)}
    (hgives : ∀ h ∈ hs, Gives n h) {f : Flags} (hupgrade : f.upgrade = false)
    (hchunked : f.chunked = false) (l : Nat) :
    ∃ f', announcedBy hs (f, l) =
        some (f', if ∃ h ∈ hs, nameKind h.1 = .contentLength then n else l) ∧
      f'.upgrade = false ∧ f'.chunked = false := by
  induction hs generalizing f l with
  | nil => exact ⟨f, by simp [announcedBy], hupgrade, hchunked⟩
  | cons h hs ih =>
    have hrest := fun x hx => hgives x (List.mem_cons_of_mem _ hx)
    rw [announcedBy, List.foldlM_cons]
    by_cases hlength : nameKind h.1 = .contentLength
    -- from here on the length is `n`
    · have hvalue : h.2 = decimal n := by
        obtain hkind | hkind | ⟨-, hvalue⟩ := hgives h (List.mem_cons_self ..)
        · cases hkind.symm.trans hlength
        · cases hkind.symm.trans hlength
        · exact hvalue
      obtain ⟨f', hf', hflags⟩ := ih hrest hupgrade hchunked n
      have hstep : announce h.1 (stripped h.2) (f, l) = some (f, n) := by
        rw [announce, hvalue, stripped_decimal, if_neg (decimal_ne_nil n), if_pos hlength,
          readLength_decimal hn]
        rfl
      refine ⟨f', ?_, hflags⟩
      rw [hstep, if_pos ⟨h, List.mem_cons_self .., hlength⟩]
      simpa [announcedBy] using hf'
    · obtain ⟨g, hstep, hg⟩ : ∃ g, announce h.1 (stripped h.2) (f, l) = some (g, l) ∧
          g.upgrade = false ∧ g.chunked = false := by
        rw [announce, if_neg hlength]
        split
        · exact ⟨f, rfl, hupgrade, hchunked⟩
        · refine ⟨_, rfl, ?_⟩
          obtain hkind | hkind | ⟨hkind, -⟩ := hgives h (List.mem_cons_self ..)
          · rw [hkind]
            exact ⟨hupgrade, hchunked⟩
          · rw [hkind, announceFlags]
            split_ifs <;> exact ⟨hupgrade, hchunked⟩
          · exact absurd hkind hlength
      obtain ⟨f', hf', hflags⟩ := ih hrest hg.1 hg.2 l
      refine ⟨f', ?_, hflags⟩
      have hexists : (∃ x ∈ h :: hs, nameKind x.1 = .contentLength) ↔
          ∃ x ∈ hs, nameKind x.1 = .contentLength := by simp [hlength]
      rw [hstep]
      simp only [hexists]
      exact hf'

/-- **Framing.** After `SetBody` the headers announce the body, if no header but `Content-Length` is
about it. -/
theorem framed_setBody {r : Request} {body : Bytes} (hbody : body.length ≤ ullongMax - 10)
    (hothers : ∀ h ∈ r.headers, SameName h.1 (ascii "Content-Length") ∨
      nameKind h.1 = .general ∨ nameKind h.1 = .connection) :
    Framed (RequestCall.apply r (.setBody body)) := by
  have hkind : ∀ {name : Bytes}, SameName name (ascii "Content-Length") →
      nameKind name = .contentLength := fun h => (nameKind_of_sameName h).trans (by decide)
  -- every other header announces no body and no coding
  have hkept : ∀ h ∈ r.headers, ¬SameName h.1 (ascii "Content-Length") → Gives body.length h :=
    fun h hh hnot => (hothers h hh).resolve_left hnot |>.imp_right .inl
  -- the row of the length, old or new, gives the length of the body
  have hgives : ∀ h ∈ (RequestCall.apply r (.setBody body)).headers, Gives body.length h := by
    intro h hh
    rw [RequestCall.apply, Net.putHeader, if_neg (by decide)] at hh
    split at hh
    · obtain ⟨x, hx, rfl⟩ := List.mem_map.mp hh
      by_cases hsame : SameName x.1 (ascii "Content-Length")
      · rw [if_pos hsame]
        exact .inr (.inr ⟨hkind hsame, rfl⟩)
      · rw [if_neg hsame]
        exact hkept x hx hsame
    · rename_i hnone
      obtain hx | hx := List.mem_append.mp hh
      · exact hkept h hx fun hsame => hnone (List.any_eq_true.mpr ⟨h, hx, by simpa using hsame⟩)
      · rw [List.mem_singleton.mp hx]
        exact .inr (.inr ⟨hkind rfl, rfl⟩)
  -- there is such a row
  have hhas : ∃ h ∈ (RequestCall.apply r (.setBody body)).headers,
      nameKind h.1 = .contentLength := by
    obtain ⟨name, hfind⟩ := Net.Request.find?_putHeader r.headers (decimal body.length)
      (by decide : ascii "Content-Length" ≠ [])
    exact ⟨_, List.mem_of_find?_eq_some hfind, hkind (by simpa using List.find?_some hfind)⟩
  obtain ⟨f, hf, hupgrade, hchunked⟩ :=
    announcedBy_of_gives hbody hgives (f := .zero) rfl rfl ullongMax
  rw [if_pos hhas] at hf
  exact ⟨f, body.length, hf, by rw [hupgrade]; exact ⟨hchunked, .inl rfl⟩⟩

/-- What `parser_url` puts behind the scheme when the request has arrived. -/
def location (r : Request) : Bytes :=
  Net.firstValue (ascii "Host") (r.headers.map fun h => (h.1, stripped h.2)) ++ r.url

/-- What the parser asks of a request, and what the record has room for. -/
structure Receivable (r : Request) : Prop where
  accepted : UrlAccepted .get r.url
  major_pos : 0 < r.httpMajor
  major_le : r.httpMajor ≤ 999
  minor_le : r.httpMinor ≤ 999
  names : ∀ h ∈ r.headers, FieldName h.1
  framed : Framed r
  url_lt : r.url.length < 1000
  host_lt : ∀ h ∈ r.headers, h.1 = ascii "Host" → r.url.length + h.2.length < 1000
  body : IsText maxBodySize r.body

/-- The record holds the request as it arrives: as a `GET`, with the values behind their blanks. -/
structure Arrives (r : Request) (m : HttpMessage) : Prop where
  method : m.method = 1
  version : m.httpMajor = r.httpMajor ∧ m.httpMinor = r.httpMinor
  url : m.requestUrl = .ofBytes _ r.url
  numHeaders : m.numHeaders = r.headers.length
  headers : m.headers = headerTable (r.headers.map fun h => (h.1, stripped h.2))
  body : m.bodySize = r.body.length ∧ m.body = .ofBytes _ r.body

section Requests

variable {r : Request}

theorem length_stripped_le (value : Bytes) : (stripped value).length ≤ value.length :=
  (List.dropWhile_sublist _).length_le

/-- A text with one of its bytes left out at the front. -/
theorem isText_stripped {n : Nat} {value : Bytes} (h : IsText n value) : IsText n (stripped value) :=
  ⟨lt_of_le_of_lt (length_stripped_le value) h.1, fun c hc =>
    h.2 c ((List.dropWhile_sublist _).mem hc)⟩

theorem length_headers_le {hs : List (Bytes × Bytes)}
    (h : ∀ x ∈ hs, x.1.length < maxElementSize ∧ x.2.length < maxElementSize) :
    (hs.flatMap Net.Outgoing.headerLine).length ≤ hs.length * (2 * maxElementSize + 1) := by
  induction hs with
  | nil => simp
  | cons x hs ih =>
    have hx := h x (List.mem_cons_self ..)
    have hrest := ih fun y hy => h y (List.mem_cons_of_mem _ hy)
    have hline : (Net.Outgoing.headerLine x).length = x.1.length + x.2.length + 3 := by
      simp only [Net.Outgoing.headerLine, Net.crlf, List.length_append, List.length_cons,
        List.length_nil]
      omega
    rw [List.flatMap_cons, List.length_append, hline, List.length_cons]
    have hmul : (hs.length + 1) * (2 * maxElementSize + 1) =
        hs.length * (2 * maxElementSize + 1) + (2 * maxElementSize + 1) := Nat.succ_mul ..
    omega

/-- **The text of a request**, as the parser reads it. -/
theorem exists_plainRequest (hfits : r.Fits) (h : Receivable r) :
    ∃ p : PlainRequest, p.text = r.outgoing.text ∧ p.head.length ≤ httpMaxHeaderSize ∧ FitsRecord p ∧
      p.location = location r ∧ ∀ m, ReceivedIn p m → Arrives r m := by
  obtain ⟨f, l, hannounced, hframed⟩ := h.framed
  obtain ⟨v, hmajor, hminor⟩ := exists_version h.major_pos h.major_le h.minor_le
  obtain ⟨ls, hls, htext⟩ := exists_headerLines fun x hx => ⟨h.names x hx, (hfits.named x hx).2.2⟩
  have hbody : r.body.length < ullongMax := h.body.1.trans (by decide)
  let p : PlainRequest := {
    line := ⟨.get, r.url, v, h.accepted⟩
    headers := ls
    body := r.body
    flags := f
    contentLength := l
    announces := (announced_eq hls _).trans hannounced
    framed := by
      by_cases hup : f.upgrade = true
      · rw [if_pos hup] at hframed
        rw [if_pos (.inl hup)]
        exact hframed
      · rw [if_neg hup] at hframed
        rw [if_neg (by simp [hup])]
        exact ⟨hframed.1, hframed.2.imp_left fun hl => ⟨hl, hbody⟩⟩ }
  have hlen : ls.length = r.headers.length := by
    have hcongr := congrArg List.length hls
    simpa using hcongr
  have hhead : p.head = r.outgoing.head := by
    show methodString .get ++ [code ' '] ++ (r.url ++ [code ' ']) ++ ascii "HTTP/" ++
      (v.major ++ code '.' :: v.minor ++ [cr, lf]) ++ headersText ls ++ [cr, lf] = _
    rw [htext, hmajor, hminor]
    simp only [Net.Outgoing.head, Request.outgoing, Request.line, List.append_assoc]
    rfl
  -- each header that is received is one that was sent
  have hheader : ∀ l ∈ ls, ∃ x ∈ r.headers, l.name = x.1 ∧ l.value = stripped x.2 := by
    intro l hl
    have hmem : (l.name, l.value) ∈ r.headers.map fun x => (x.1, stripped x.2) :=
      hls ▸ List.mem_map_of_mem (f := fun l : HeaderLine => (l.name, l.value)) hl
    obtain ⟨x, hx, heq⟩ := List.mem_map.mp hmem
    exact ⟨x, hx, (Prod.mk.inj heq).1.symm, (Prod.mk.inj heq).2.symm⟩
  have hlocation : p.location = location r :=
    congrArg (fun hs => Net.firstValue (ascii "Host") hs ++ r.url) hls
  refine ⟨p, by rw [PlainRequest.text, hhead]; rfl, ?_, ?_, hlocation, fun m hm => ?_⟩
  · have hheaders := length_headers_le fun x hx =>
      ⟨(hfits.rows.texts x hx).1.1, (hfits.rows.texts x hx).2.1⟩
    have hline := hfits.isText_line.1
    have hcount := Nat.mul_le_mul_right (2 * maxElementSize + 1) hfits.rows.length_le
    have hlimit : maxHeaders * (2 * maxElementSize + 1) + Net.statusLineSize + 4 ≤
        httpMaxHeaderSize := by decide
    rw [hhead]
    simp only [Net.Outgoing.head, Request.outgoing, Net.crlf, List.length_append, List.length_cons,
      List.length_nil]
    omega
  · refine ⟨h.url_lt, hlen.le.trans hfits.rows.length_le, fun l hl => ?_, fun l hl hname => ?_, h.body⟩
    · obtain ⟨x, hx, hn, hv⟩ := hheader l hl
      rw [hn, hv]
      exact ⟨(hfits.rows.texts x hx).1.1, isText_stripped (hfits.rows.texts x hx).2⟩
    · obtain ⟨x, hx, hn, hv⟩ := hheader l hl
      have hlt := h.host_lt x hx (hn ▸ hname)
      have hle := length_stripped_le x.2
      rw [hv]
      show r.url.length + _ < 1000
      omega
  · have hmajor' : digitsFrom 0 v.major = r.httpMajor := by rw [hmajor, digitsFrom_decimal]
    have hminor' : digitsFrom 0 v.minor = r.httpMinor := by rw [hminor, digitsFrom_decimal]
    refine ⟨hm.method, ⟨hm.version.1.trans hmajor', hm.version.2.trans hminor'⟩, hm.url, ?_, ?_,
      hm.body⟩
    · rw [hm.numHeaders]
      exact congrArg Int.ofNat hlen
    · rw [hm.headers]
      exact congrArg headerTable hls

/-- Line ends behind a request are skipped. -/
theorem reads_lineEnds {q : Parser} {w : List Callback} (bs : Bytes)
    (hs : q.state = .startReq ∨ q.state = .dead) (hbs : ∀ c ∈ bs, c = cr ∨ c = lf)
    (hn : q.nread + bs.length ≤ httpMaxHeaderSize) :
    Reads ⟨q, none, w⟩ bs ⟨{ q with nread := q.nread + bs.length }, none, w⟩ := by
  induction bs generalizing q with
  | nil => exact Reads.nil _
  | cons c bs ih =>
    rw [List.length_cons] at hn ⊢
    have hc := hbs c (List.mem_cons_self ..)
    have hbyte : Reads ⟨q, none, w⟩ [c] ⟨{ q with nread := q.nread + 1 }, none, w⟩ := by
      refine Reads.header ?_ (by omega) fun _ => ?_
      · obtain hs | hs := hs <;> rw [hs] <;> rfl
      · obtain hs | hs := hs
        · simp only [switch, hs, startReqCase, if_pos hc]
          rfl
        · simp only [switch, hs, deadCase, if_pos hc]
          rfl
    have hmore := ih (q := { q with nread := q.nread + 1 }) hs
      (fun x hx => hbs x (List.mem_cons_of_mem _ hx)) (by dsimp only; omega)
    rw [show q.nread + (bs.length + 1) = q.nread + 1 + bs.length by omega]
    exact hbyte.cons hmore

/-- The string that `ToString` leaves: the message, and behind it as much of a line end as fits. -/
theorem text_toString (hfits : r.Fits) (hbody : ∀ c ∈ r.body, c ≠ 0) (k : Nat) :
    text (r.outgoing.text ++ (Net.crlf ++ [0]).take k) = r.outgoing.text ++ Net.crlf.take k := by
  have hne : ∀ c ∈ r.outgoing.text ++ Net.crlf.take k, c ≠ 0 := by
    intro c hc
    obtain hc | hc := List.mem_append.mp hc
    · obtain hc | hc := List.mem_append.mp hc
      · exact hfits.outgoing.ne_zero_of_mem_head hc
      · exact hbody c hc
    · have hmem := List.mem_of_mem_take hc
      revert hmem
      rintro (_ | ⟨_, _ | ⟨_, _ | _⟩⟩) <;> decide
  by_cases hk : k ≤ 2
  · have htake : (Net.crlf ++ [0]).take k = Net.crlf.take k :=
      List.take_append_of_le_length hk
    rw [htake, text_eq_self hne]
  · have hfull : Net.crlf.take k = Net.crlf := List.take_of_length_le (by simp [Net.crlf]; omega)
    have htake : (Net.crlf ++ [0]).take k = Net.crlf ++ [0] :=
      List.take_of_length_le (by simp [Net.crlf]; omega)
    rw [hfull] at hne ⊢
    rw [htake, ← List.append_assoc, text_append_zero hne]

/-- **A request arrives.** Whatever calls have built a request that the parser takes, the string that
`ToString` leaves, sent in any segments, is received in one record, with the version, url, headers
and body of the request. -/
theorem sent_received {fieldData : Nat → UrlField → FieldData} {url : Bytes}
    {calls : List RequestCall} (h : Request.Limits url calls)
    (hr : Receivable (Request.built url calls))
    (hinside : Hostless (location (Request.built url calls)) → HostInside (fieldData 0)) {len : Nat}
    (hlen : (Request.built url calls).outgoing.text.length ≤ len) :
    ∃ data, calls.foldlM RequestCall.perform (Request.construct url) =
        .ok (Request.built url calls).record ∧
      Net.HttpRequest.toString (Request.built url calls).record len = .ok data ∧
      ∀ segments : List Bytes, segments.flatten = text data →
        ∃ c s m, Session.feed (recordSettings (urlParsers fieldData)) (.start .request) segments =
            .ok c ∧ c.parser.errno = .ok ∧ c.consumed = (text data).length ∧
          run (callbackStep (urlParsers fieldData)) .init c.made = .ok s ∧
          s.parserFlag.messageList = [m] ∧ Arrives (Request.built url calls) m := by
  obtain ⟨hbuilt, hfits⟩ := h.built_eq
  refine ⟨_, hbuilt, h.toString_eq hlen, fun segments hsegments => ?_⟩
  -- the text of the request is that of one a parser reads
  obtain ⟨p, htext, hhead, hrecord, hlocation, harrives⟩ := exists_plainRequest hfits hr
  obtain ⟨q, hread, -, hstatus, hnread, hstate⟩ := reads_request (q := .init .request) (w := []) p
    ⟨rfl, rfl⟩ (by rw [show (Parser.init .request).nread = 0 from rfl]; omega)
  generalize len - (Request.built url calls).outgoing.text.length = k at hsegments
  rw [text_toString hfits hr.body.2 k, ← htext] at hsegments
  rw [text_toString hfits hr.body.2 k, ← htext]
  -- what `snprintf` cut off is line ends, which the parser passes over
  have hends := reads_lineEnds (q := q) (w := [] ++ p.callbacks (Parser.init .request).statusCode)
    (Net.crlf.take k) (by rw [hstate]; split <;> simp)
    (fun c hc => by simpa [Net.crlf, cr, lf] using List.mem_of_mem_take hc) (by
      have hle := List.length_take_le k Net.crlf
      have htwo : Net.crlf.length = 2 := rfl
      rw [hnread]
      exact (Nat.zero_add _).le.trans (by simp [htwo, httpMaxHeaderSize]))
  have hreads := hread.append hends
  have hcallbacks : [] ++ p.callbacks (Parser.init .request).statusCode = requestCallbacks [p] := by
    simp [requestCallbacks, Parser.init]
  rw [hcallbacks] at hreads
  have hhosts : HostsInside fieldData [p] := by
    intro k x hk
    obtain ⟨hlt, rfl⟩ := List.getElem?_eq_some_iff.mp hk
    obtain rfl := Nat.lt_one_iff.mp hlt
    rw [List.getElem_cons_zero, hlocation]
    exact hinside
  obtain ⟨c, s, hfeed, he, hconsumed, hrun, hall⟩ := received_of_reads hhosts
    (fun x hx => List.mem_singleton.mp hx ▸ hrecord) hreads hsegments
  obtain ⟨m, rest, hm, hrest, hlist⟩ := List.forall₂_cons_left_iff.mp hall
  obtain rfl := List.forall₂_nil_left_iff.mp hrest
  exact ⟨c, s, m, hfeed, he, hsegments ▸ hconsumed, hrun, hlist, harrives m hm⟩

/-- The request with the default headers, a `Host` and a body of two bytes. -/
theorem receivable_get : Receivable (Request.built (ascii "/index") Request.getCalls) where
  accepted := by decide +kernel
  major_pos := by decide +kernel
  major_le := by decide +kernel
  minor_le := by decide +kernel
  names := by decide +kernel
  framed := by
    rw [Request.built, Request.getCalls, List.foldl_append]
    exact framed_setBody (by decide) (by decide +kernel)
  url_lt := by decide +kernel
  host_lt := by decide +kernel
  body := by decide +kernel

/-- Records that hold a host outside the array `url`. -/
def farRecords : Nat → UrlField → FieldData := fun _ _ => ⟨65535, 65535⟩

/-- The request has a `Host`. -/
theorem not_hostless_get : ¬Hostless (location (Request.built (ascii "/index") Request.getCalls)) := by
  have hlocation : location (Request.built (ascii "/index") Request.getCalls) =
      code 's' :: ascii "ails/index" := by decide +kernel
  rw [hlocation]
  exact not_hostless_of_head (by decide) _

theorem sent_received_get :
    ∃ data, Request.getCalls.foldlM RequestCall.perform (Request.construct (ascii "/index")) =
        .ok (Request.built (ascii "/index") Request.getCalls).record ∧
      Net.HttpRequest.toString (Request.built (ascii "/index") Request.getCalls).record 1000 =
        .ok data ∧
      ∀ segments : List Bytes, segments.flatten = text data →
        ∃ c s m, Session.feed (recordSettings (urlParsers farRecords)) (.start .request) segments =
            .ok c ∧ c.parser.errno = .ok ∧ c.consumed = (text data).length ∧
          run (callbackStep (urlParsers farRecords)) .init c.made = .ok s ∧
          s.parserFlag.messageList = [m] ∧
          Arrives (Request.built (ascii "/index") Request.getCalls) m :=
  sent_received Request.limits_get receivable_get (fun hnone => absurd hnone not_hostless_get)
    (by decide +kernel)

end Requests

end Sails.HttpParser
