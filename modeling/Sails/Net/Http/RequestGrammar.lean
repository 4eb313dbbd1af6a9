import Sails.Library.TextReader
import Sails.Net.Http.Serialize

/-!
# The grammar of requests

A reader for `method SP url SP HTTP/major.minor CRLF`, `name:value CRLF` lines, a blank line and as
many bytes as `Content-Length` says. It is what a receiver makes of a text; no function of the source
is translated here, but for the table of methods.

- `Request`: what a request says
- `Request.read`: the reader
- `read_outgoing`: what it makes of a message put together by `message_to_string`
-/

namespace Sails.Net

open CMemory
open TextReader (cutAt cutAtLast cutLine cutPrefix readDecimal)

/-- `HTTP_METHOD_MAP`. -/
def httpMethods : List (Nat × String) :=
  [(0, "DELETE"), (1, "GET"), (2, "HEAD"), (3, "POST"), (4, "PUT"), (5, "CONNECT"), (6, "OPTIONS"),
    (7, "TRACE"), (8, "COPY"), (9, "LOCK"), (10, "MKCOL"), (11, "MOVE"), (12, "PROPFIND"),
    (13, "PROPPATCH"), (14, "SEARCH"), (15, "UNLOCK"), (16, "REPORT"), (17, "MKACTIVITY"),
    (18, "CHECKOUT"), (19, "MERGE"), (20, "M-SEARCH"), (21, "NOTIFY"), (22, "SUBSCRIBE"),
    (23, "UNSUBSCRIBE"), (24, "PATCH"), (25, "PURGE"), (26, "MKCALENDAR")]

/-- What a request says. -/
structure Request where
  method : Nat
  url : Bytes
  httpMajor : Nat
  httpMinor : Nat
  headers : List (Bytes × Bytes)
  body : Bytes
  deriving DecidableEq

namespace Request

/-! ## Reading -/

/-- The number of the method of this name. -/
def readMethod (name : Bytes) : Option Nat :=
  (httpMethods.find? fun p => decide (ascii p.2 = name)).map Prod.fst

/-- The two numbers of `HTTP/major.minor`. -/
def readVersion (s : Bytes) : Option (Nat × Nat) := do
  let numbers ← cutPrefix (ascii "HTTP/") s
  let (major, minor) ← cutAt 46 numbers
  let httpMajor ← readDecimal major
  let httpMinor ← readDecimal minor
  some (httpMajor, httpMinor)

/-- The request line: the url is all between the first space and the last one. -/
def readRequestLine (line : Bytes) : Option (Nat × Bytes × Nat × Nat) := do
  let (name, rest) ← cutAt 32 line
  let (url, version) ← cutAtLast 32 rest
  let method ← readMethod name
  let (httpMajor, httpMinor) ← readVersion version
  some (method, url, httpMajor, httpMinor)

/-- The header lines up to the blank one, of which there are fewer than `fuel`, and what follows. -/
def readHeaders : Nat → Bytes → Option (List (Bytes × Bytes) × Bytes)
  | 0, _ => none
  | fuel + 1, s => do
    let (line, rest) ← cutLine s
    if line = [] then some ([], rest)
    else do
      let (name, value) ← cutAt 58 line
      let (headers, rest) ← readHeaders fuel rest
      some ((name, value) :: headers, rest)

/-- The number of bytes of the body: what the first `Content-Length` says, and 0 without one. -/
def contentLength (headers : List (Bytes × Bytes)) : Option Nat :=
  match headers.find? fun h => decide (SameName h.1 (ascii "Content-Length")) with
  | none => some 0
  | some h => readDecimal h.2

/-- The request at the beginning of `s`. -/
def read (s : Bytes) : Option Request := do
  let (line, rest) ← cutLine s
  let (method, url, httpMajor, httpMinor) ← readRequestLine line
  let (headers, rest) ← readHeaders rest.length rest
  let count ← contentLength headers
  if count ≤ rest.length then some ⟨method, url, httpMajor, httpMinor, headers, rest.take count⟩
  else none

/-! ## Reading what was written -/

/-- A text that stands within a line. -/
def WithinLine (s : Bytes) : Prop := ∀ c ∈ s, c ≠ 13 ∧ c ≠ 10

instance (s : Bytes) : Decidable (WithinLine s) := List.decidableBAll _ s

theorem WithinLine.append {s t : Bytes} (hs : WithinLine s) (ht : WithinLine t) :
    WithinLine (s ++ t) := fun c hc => (List.mem_append.mp hc).elim (hs c) (ht c)

theorem WithinLine.not_mem {s : Bytes} (h : WithinLine s) : (13 : UInt8) ∉ s :=
  fun hc => (h 13 hc).1 rfl

/-- A header that can be told from its line. -/
def NamesValue (h : Bytes × Bytes) : Prop := (58 : UInt8) ∉ h.1 ∧ WithinLine h.1 ∧ WithinLine h.2

instance (h : Bytes × Bytes) : Decidable (NamesValue h) := inferInstanceAs (Decidable (_ ∧ _))

/-- The request line with this method name. -/
def line (name url : Bytes) (httpMajor httpMinor : Nat) : Bytes :=
  name ++ ascii " " ++ url ++ ascii " HTTP/" ++ decimal httpMajor ++ ascii "." ++ decimal httpMinor

variable {name url : Bytes} {method httpMajor httpMinor : Nat}

theorem not_mem_decimal {c : UInt8} (hc : c < 48) (n : Nat) : c ∉ decimal n := fun h =>
  absurd (mem_decimal h).1 (UInt8.not_le.mpr hc)

theorem withinLine_decimal (n : Nat) : WithinLine (decimal n) := by
  intro c hc
  have hlow := (mem_decimal hc).1
  refine ⟨?_, ?_⟩ <;> rintro rfl <;> exact absurd hlow (by decide)

theorem readVersion_eq (httpMajor httpMinor : Nat) :
    readVersion (ascii "HTTP/" ++ (decimal httpMajor ++ ascii "." ++ decimal httpMinor)) =
      some (httpMajor, httpMinor) := by
  have hdot : ascii "." = [46] := rfl
  have hcut : cutAt 46 (decimal httpMajor ++ 46 :: decimal httpMinor) =
      some (decimal httpMajor, decimal httpMinor) :=
    TextReader.cutAt_append (not_mem_decimal (by decide) httpMajor)
  rw [readVersion, TextReader.cutPrefix_append, hdot, List.append_assoc, List.singleton_append]
  simp only [bind, Option.bind, hcut, TextReader.readDecimal_decimal]

theorem readRequestLine_line (hname : (32 : UInt8) ∉ name) (hmethod : readMethod name = some method) :
    readRequestLine (line name url httpMajor httpMinor) = some (method, url, httpMajor, httpMinor) := by
  -- the version has no space, so the last space is the one in front of it
  have hversion : (32 : UInt8) ∉
      ascii "HTTP/" ++ (decimal httpMajor ++ ascii "." ++ decimal httpMinor) := by
    simp only [List.mem_append, not_or]
    exact ⟨by decide, ⟨not_mem_decimal (by decide) _, by decide⟩, not_mem_decimal (by decide) _⟩
  have hparts : line name url httpMajor httpMinor = name ++ 32 :: (url ++ 32 ::
      (ascii "HTTP/" ++ (decimal httpMajor ++ ascii "." ++ decimal httpMinor))) := by
    have hspace : ascii " " = [32] := rfl
    have hlead : ascii " HTTP/" = 32 :: ascii "HTTP/" := rfl
    simp only [line, hspace, hlead, List.append_assoc, List.cons_append, List.nil_append]
  rw [readRequestLine, hparts]
  simp only [bind, Option.bind, TextReader.cutAt_append hname, TextReader.cutAtLast_append hversion,
    hmethod, readVersion_eq]

/-- The header lines and the blank line, whatever follows. -/
theorem readHeaders_lines {headers : List (Bytes × Bytes)} (h : ∀ x ∈ headers, NamesValue x)
    {fuel : Nat} (hfuel : headers.length < fuel) (rest : Bytes) :
    readHeaders fuel (headers.flatMap Outgoing.headerLine ++ crlf ++ rest) = some (headers, rest) := by
  induction headers generalizing fuel with
  | nil =>
    obtain ⟨fuel, rfl⟩ := Nat.exists_eq_add_one_of_ne_zero (Nat.ne_of_gt hfuel)
    have hcut : cutLine (crlf ++ rest) = some ([], rest) :=
      TextReader.cutLine_append (s := []) (by simp)
    simp only [List.flatMap_nil, List.nil_append, readHeaders, hcut, bind, Option.bind, if_true]
  | cons x headers ih =>
    obtain ⟨fuel, rfl⟩ := Nat.exists_eq_add_one_of_ne_zero (Nat.ne_of_gt (Nat.zero_lt_of_lt hfuel))
    obtain ⟨hcolon, hname, hvalue⟩ := h x (List.mem_cons_self ..)
    have hrest := ih (fun y hy => h y (List.mem_cons_of_mem _ hy))
      (Nat.lt_of_succ_lt_succ hfuel)
    have hline : (x :: headers).flatMap Outgoing.headerLine ++ crlf ++ rest =
        (x.1 ++ 58 :: x.2) ++ TextReader.crlf ++
          (headers.flatMap Outgoing.headerLine ++ crlf ++ rest) := by
      simp [Outgoing.headerLine, crlf, TextReader.crlf]
    have hcr : (13 : UInt8) ∉ x.1 ++ 58 :: x.2 := by
      simp only [List.mem_append, List.mem_cons, not_or]
      exact ⟨hname.not_mem, by decide, hvalue.not_mem⟩
    -- a header line has its colon, so it is not the blank line
    have hne : x.1 ++ 58 :: x.2 ≠ [] := by simp
    rw [hline, readHeaders, TextReader.cutLine_append hcr]
    simp only [bind, Option.bind, if_neg hne, TextReader.cutAt_append hcolon, hrest]

/-- **What a receiver reads.** The text of a message with a request line, and with anything behind
it, is read as the request with the message's headers and with as many bytes of body as its
`Content-Length` says. -/
theorem read_outgoing {o : Outgoing} (hstart : o.startLine = line name url httpMajor httpMinor)
    (hname : (32 : UInt8) ∉ name ∧ WithinLine name) (hmethod : readMethod name = some method)
    (hurl : WithinLine url) (hheaders : ∀ x ∈ o.headers, NamesValue x) (rest : Bytes) :
    read (o.text ++ rest) = (contentLength o.headers).bind fun count =>
      if count ≤ (o.body ++ rest).length then
        some ⟨method, url, httpMajor, httpMinor, o.headers, (o.body ++ rest).take count⟩
      else none := by
  have hline : WithinLine (line name url httpMajor httpMinor) :=
    ((((hname.2.append (by decide)).append hurl).append (by decide)).append
      (withinLine_decimal _)).append (by decide) |>.append (withinLine_decimal _)
  have htext : o.text ++ rest = line name url httpMajor httpMinor ++ TextReader.crlf ++
      (o.headers.flatMap Outgoing.headerLine ++ crlf ++ (o.body ++ rest)) := by
    simp [Outgoing.text, Outgoing.head, hstart, crlf, TextReader.crlf]
  -- each line has a colon and its end, so there are fewer lines than bytes
  have hfuel : o.headers.length <
      (o.headers.flatMap Outgoing.headerLine ++ crlf ++ (o.body ++ rest)).length := by
    have hlines : ∀ hs : List (Bytes × Bytes),
        hs.length ≤ (hs.flatMap Outgoing.headerLine).length := by
      intro hs
      induction hs with
      | nil => exact Nat.le_refl 0
      | cons x hs ih =>
        simp only [List.flatMap_cons, List.length_append, Outgoing.headerLine, List.length_cons]
        omega
    have hle := hlines o.headers
    simp only [List.length_append, crlf, List.length_cons, List.length_nil]
    omega
  rw [htext, read, TextReader.cutLine_append hline.not_mem]
  simp only [bind, Option.bind, readRequestLine_line hname.1 hmethod,
    readHeaders_lines hheaders hfuel]

end Request

end Sails.Net
