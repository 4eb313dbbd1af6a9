import Sails.Library.OrderedMap
import Sails.Base.UrlCoding

/-!
# `MimeTypeManager::init` (`net/mime.cc`)

- `init`: the built-in types, and those of the lines of `/etc/mime.types`
- `listedType`: the type of the first line that lists an extension
- `init_eq`, `init_error`: the table that is made of the texts of the lines
- `loadsTypes_iff`: the files that are loaded as they should be

The loop over the extensions of a line starts behind its first token, so that there has to be one. A
line is split as a C string, up to its first NUL.
-/

namespace Sails.Net

open TransitionRun (Fault ok_of_bind)
open CMemory
open Sails.Base (split splitString split_eq)
open OrderedMap (find set find_cons find_set mem_of_find)

/-! ## The table -/

/-- `std::map<std::string, std::string>`. -/
abbrev TypeMap := List (Bytes × Bytes)

/-- The types that are inserted before the file is read. -/
def builtInTypes : TypeMap :=
  [(ascii ".xml", ascii "text/xml"), (ascii ".html", ascii "text/html"),
    (ascii ".htm", ascii "text/html"), (ascii ".txt", ascii "text/plain"),
    (ascii ".js", ascii "application/x-javascript"), (ascii ".ico", ascii "image/x-icon"),
    (ascii ".json", ascii "application/json")]

/-- `insert`, which leaves a key alone that has a value. -/
def insertRow (typemap : TypeMap) (row : Bytes × Bytes) : TypeMap :=
  match find typemap row.1 with
  | some _ => typemap
  | none => set typemap row.1 row.2

/-- `operator[]`, which makes an empty value for a new key. -/
def entryAt (typemap : TypeMap) (key : Bytes) : Bytes × TypeMap :=
  match find typemap key with
  | some value => (value, typemap)
  | none => ([], set typemap key [])

/-! ## `init` -/

/-- One extension of a line. -/
def addExtension (type : Bytes) (typemap : TypeMap) (token : Bytes) : TypeMap :=
  let ext := ascii "." ++ token
  let (known, typemap) := entryAt typemap ext
  if known = [] then set typemap ext type else typemap

/-- The loop from `result.begin() + 1` on, which is no place of an empty vector. -/
def addTypes (typemap : TypeMap) : List Bytes → Except Fault TypeMap
  | [] => .error .outOfBounds
  | type :: tokens => .ok (tokens.foldl (addExtension type) typemap)

/-- A comment or an empty line. -/
def isSkipped (line : Bytes) : Bool := line = [] ∨ line.head? = some 35

/-- One line of the file. -/
def addLine (typemap : TypeMap) (line : Bytes) : Except Fault TypeMap :=
  if isSkipped line then .ok typemap
  else do
    let result ← splitString line (ascii " \t" ++ [0]) []
    addTypes typemap result

/-- The lines `getline` reads; there is none behind the last line end. -/
def lines (content : Bytes) : List Bytes :=
  let pieces := content.splitOn 10
  if pieces.getLast? = some [] then pieces.dropLast else pieces

/-- The table before the file is read. -/
def initialTypes : TypeMap := builtInTypes.foldl insertRow []

/-- `MimeTypeManager::init()` on the content of the file; `none` if it cannot be opened. -/
def init : Option Bytes → Except Fault TypeMap
  | none => .ok initialTypes
  | some content => (lines content).foldlM addLine initialTypes

/-! ## The types a file lists -/

/-- The delimiters of a line. -/
def isBlank (c : UInt8) : Bool := (ascii " \t").contains c

/-- The tokens of a line: its type and its extensions. -/
def fields (line : Bytes) : List Bytes := Tokens.tokens isBlank line

/-- The lines that are neither comments nor empty. -/
def typeLines (content : Bytes) : List Bytes := (lines content).filter fun line => !isSkipped line

/-- The extension is among those of a line. -/
def Lists (tokens : List Bytes) (ext : Bytes) : Prop := ∃ token ∈ tokens, ext = ascii "." ++ token

instance (tokens : List Bytes) (ext : Bytes) : Decidable (Lists tokens ext) :=
  inferInstanceAs (Decidable (∃ token ∈ tokens, _))

/-- The type that the tokens of a line give to an extension. -/
def typeFor (ext : Bytes) : List Bytes → Option Bytes
  | [] => none
  | type :: tokens => if Lists tokens ext then some type else none

/-- The type of the first line that lists the extension. -/
def listedType (content ext : Bytes) : Option Bytes :=
  (typeLines content).findSome? fun line => typeFor ext (fields line)

/-- **The table is loaded correctly**: `init` stays inside the tokens of each line, and then every
extension has its built-in type, or else that of the first line that lists it, or none. -/
def LoadsTypes (content : Bytes) : Prop :=
  ∃ typemap, init (some content) = .ok typemap ∧
    ∀ ext, find typemap ext = (find builtInTypes ext).or (listedType content ext)

/-! ## The table as it is filled -/

section Filling

variable {typemap : TypeMap} {type token ext line : Bytes} {tokens : List Bytes}

/-- No key has an empty value. -/
def NoEmpty (typemap : TypeMap) : Prop := ∀ ext v, find typemap ext = some v → v ≠ []

/-- An extension gets the type of the line if it has none yet. -/
theorem find_addExtension (h : NoEmpty typemap) (type token ext : Bytes) :
    find (addExtension type typemap token) ext =
      (find typemap ext).or (if ext = ascii "." ++ token then some type else none) := by
  cases hfind : find typemap (ascii "." ++ token) with
  | none =>
    have hadd : addExtension type typemap token =
        set (set typemap (ascii "." ++ token) []) (ascii "." ++ token) type := by
      simp only [addExtension, entryAt, hfind, if_true]
    rw [hadd, find_set, find_set]
    by_cases hext : ext = ascii "." ++ token
    · rw [if_pos hext, if_pos hext, hext, hfind, Option.none_or]
    · rw [if_neg hext, if_neg hext, if_neg hext, Option.or_none]
  | some v =>
    have hadd : addExtension type typemap token = typemap := by
      simp only [addExtension, entryAt, hfind, if_neg (h _ _ hfind)]
    rw [hadd]
    by_cases hext : ext = ascii "." ++ token
    · rw [hext, hfind, Option.some_or]
    · rw [if_neg hext, Option.or_none]

theorem lists_cons {token ext : Bytes} {tokens : List Bytes} :
    Lists (token :: tokens) ext ↔ ext = ascii "." ++ token ∨ Lists tokens ext :=
  List.exists_mem_cons_iff ..

theorem find_addExtensions (h : NoEmpty typemap) (htype : type ≠ []) (tokens : List Bytes) :
    NoEmpty (tokens.foldl (addExtension type) typemap) ∧
      ∀ ext, find (tokens.foldl (addExtension type) typemap) ext =
        (find typemap ext).or (typeFor ext (type :: tokens)) := by
  induction tokens generalizing typemap with
  | nil => exact ⟨h, fun ext => by simp [typeFor, Lists]⟩
  | cons token tokens ih =>
    have hfirst := find_addExtension h type token
    have hnext : NoEmpty (addExtension type typemap token) := by
      intro ext v hv
      rw [hfirst] at hv
      rcases Option.or_eq_some_iff.mp hv with hold | ⟨-, hnew⟩
      · exact h ext v hold
      · split_ifs at hnew
        exact Option.some.inj hnew ▸ htype
    obtain ⟨hempty, hfind⟩ := ih hnext
    refine ⟨hempty, fun ext => ?_⟩
    rw [List.foldl_cons, hfind, hfirst, Option.or_assoc, typeFor, typeFor]
    by_cases hext : ext = ascii "." ++ token
    · rw [if_pos hext, if_pos (lists_cons.mpr (.inl hext)), Option.some_or]
    · have hlists : Lists (token :: tokens) ext ↔ Lists tokens ext :=
        lists_cons.trans (or_iff_right hext)
      rw [if_neg hext, Option.none_or]
      simp only [hlists]

/-- The tokens of a line as `SplitString` finds them. -/
theorem splitString_eq (line : Bytes) :
    splitString line (ascii " \t" ++ [0]) [] = .ok (fields (text line)) := by
  have hsplit : split line (ascii " \t" ++ [0]) = .ok (fields (text line)) := by
    have htext : text (ascii " \t" ++ [0]) = ascii " \t" := by decide
    rw [split_eq, htext, if_pos (by decide)]
    rfl
  rw [splitString, hsplit]
  rfl

theorem addLine_skipped (h : isSkipped line = true) : addLine typemap line = .ok typemap := if_pos h

theorem addLine_eq (h : isSkipped line = false) :
    addLine typemap line = addTypes typemap (fields (text line)) := by
  rw [addLine, if_neg (by simp [h]), splitString_eq]
  rfl

/-- One line with a token. -/
theorem exists_addLine (h : isSkipped line = false) (hne : fields (text line) ≠ [])
    (hempty : NoEmpty typemap) :
    ∃ typemap', addLine typemap line = .ok typemap' ∧ NoEmpty typemap' ∧
      ∀ ext, find typemap' ext = (find typemap ext).or (typeFor ext (fields (text line))) := by
  obtain ⟨type, tokens, hfields⟩ := List.exists_cons_of_ne_nil hne
  have htype : type ≠ [] :=
    Tokens.ne_nil_of_mem_tokens (hfields ▸ List.mem_cons_self .. : type ∈ fields (text line))
  obtain ⟨hempty', hfind⟩ := find_addExtensions hempty htype tokens
  rw [addLine_eq h, hfields]
  exact ⟨_, rfl, hempty', hfind⟩

/-- **The lines one after the other**: each of them gives a type to the extensions that have none. -/
theorem exists_addLines (ls : List Bytes)
    (h : ∀ line ∈ ls.filter fun line => !isSkipped line, fields (text line) ≠ [])
    (hempty : NoEmpty typemap) :
    ∃ typemap', ls.foldlM addLine typemap = .ok typemap' ∧
      ∀ ext, find typemap' ext = (find typemap ext).or
        ((ls.filter fun line => !isSkipped line).findSome? fun line =>
          typeFor ext (fields (text line))) := by
  induction ls generalizing typemap with
  | nil => exact ⟨typemap, rfl, fun ext => (Option.or_none ..).symm⟩
  | cons line ls ih =>
    cases hskip : isSkipped line with
    | true =>
      have hfilter : (line :: ls).filter (fun line => !isSkipped line) =
          ls.filter fun line => !isSkipped line := List.filter_cons_of_neg (by simp [hskip])
      rw [hfilter] at h ⊢
      rw [List.foldlM_cons, addLine_skipped hskip]
      exact ih h hempty
    | false =>
      have hfilter : (line :: ls).filter (fun line => !isSkipped line) =
          line :: ls.filter fun line => !isSkipped line := List.filter_cons_of_pos (by simp [hskip])
      rw [hfilter] at h ⊢
      obtain ⟨typemap', hline, hempty', hfind'⟩ :=
        exists_addLine hskip (h line (List.mem_cons_self ..)) hempty
      obtain ⟨typemap'', hrest, hfind⟩ := ih (fun l hl => h l (List.mem_cons_of_mem _ hl)) hempty'
      refine ⟨typemap'', ?_, fun ext => ?_⟩
      · rw [List.foldlM_cons, hline]
        exact hrest
      · rw [hfind, hfind', Option.or_assoc, List.findSome?_cons]
        cases typeFor ext (fields (text line)) with
        | none => rw [Option.none_or]
        | some type => rw [Option.some_or]

/-- A line without a token ends it. -/
theorem addLines_error (ls : List Bytes) {line : Bytes}
    (hmem : line ∈ ls.filter fun line => !isSkipped line) (hnone : fields (text line) = [])
    {typemap' : TypeMap} : ls.foldlM addLine typemap ≠ .ok typemap' := by
  induction ls generalizing typemap with
  | nil => cases hmem
  | cons first ls ih =>
    intro hok
    rw [List.foldlM_cons] at hok
    obtain ⟨next, hfirst, hrest⟩ := ok_of_bind hok
    obtain ⟨hmem, hskip⟩ := List.mem_filter.mp hmem
    rcases List.mem_cons.mp hmem with rfl | hmem
    · rw [addLine_eq (by simpa using hskip), hnone] at hfirst
      cases hfirst
    · exact ih (List.mem_filter.mpr ⟨hmem, hskip⟩) hrest

/-! ## The table before the file is read -/

theorem find_insertRow (typemap : TypeMap) (row : Bytes × Bytes) (ext : Bytes) :
    find (insertRow typemap row) ext =
      (find typemap ext).or (if row.1 = ext then some row.2 else none) := by
  unfold insertRow
  cases hfind : find typemap row.1 with
  | some v =>
    by_cases hext : row.1 = ext
    · rw [← hext, hfind, Option.some_or]
    · rw [if_neg hext, Option.or_none]
  | none =>
    simp only [find_set]
    by_cases hext : row.1 = ext
    · rw [if_pos hext.symm, if_pos hext, ← hext, hfind, Option.none_or]
    · rw [if_neg (Ne.symm hext), if_neg hext, Option.or_none]

theorem find_insertRows (rows typemap : TypeMap) (ext : Bytes) :
    find (rows.foldl insertRow typemap) ext = (find typemap ext).or (find rows ext) := by
  induction rows generalizing typemap with
  | nil => exact (Option.or_none ..).symm
  | cons row rows ih =>
    rw [List.foldl_cons, ih, find_insertRow, find_cons, Option.or_assoc]
    split_ifs
    · rw [Option.some_or]
    · rw [Option.none_or]

theorem find_initialTypes (ext : Bytes) : find initialTypes ext = find builtInTypes ext := by
  rw [initialTypes, find_insertRows]
  exact Option.none_or ..

theorem noEmpty_initialTypes : NoEmpty initialTypes := by
  intro ext v hv
  rw [find_initialTypes] at hv
  have hall : ∀ row ∈ builtInTypes, row.2 ≠ [] := by decide
  obtain ⟨row, hrow, rfl⟩ := mem_of_find hv
  exact hall row hrow

end Filling

/-! ## The file -/

section File

variable {content ext : Bytes}

/-- The type of the first line whose text lists the extension. -/
def textType (content ext : Bytes) : Option Bytes :=
  (typeLines content).findSome? fun line => typeFor ext (fields (text line))

/-- **The table**, if the text of every line has a token. -/
theorem init_eq (h : ∀ line ∈ typeLines content, fields (text line) ≠ []) :
    ∃ typemap, init (some content) = .ok typemap ∧
      ∀ ext, find typemap ext = (find builtInTypes ext).or (textType content ext) := by
  obtain ⟨typemap, hok, hfind⟩ := exists_addLines (lines content) h noEmpty_initialTypes
  refine ⟨typemap, hok, fun ext => ?_⟩
  rw [hfind, find_initialTypes]
  rfl

/-- Otherwise the loop over its extensions starts behind the end of the vector. -/
theorem init_error {line : Bytes} (hmem : line ∈ typeLines content)
    (hnone : fields (text line) = []) {typemap : TypeMap} : init (some content) ≠ .ok typemap :=
  addLines_error (lines content) hmem hnone

/-! ## Bytes behind a NUL -/

/-- **The files that are loaded as they should be.** -/
structure Loadable (content : Bytes) : Prop where
  /-- the text of every line that is read has a token -/
  has_type : ∀ line ∈ typeLines content, fields (text line) ≠ []
  /-- no extension has a NUL in it -/
  no_nul : ∀ line ∈ typeLines content, ∀ token ∈ (fields line).tail, 0 ∉ token
  /-- a type with a NUL in it is given to extensions only that have another type already -/
  known : ∀ before line after, typeLines content = before ++ line :: after → 0 ∈ line →
    ∀ token ∈ (fields line).tail, (find builtInTypes (ascii "." ++ token)).isSome ∨
      ∃ earlier ∈ before, token ∈ (fields earlier).tail

theorem typeFor_eq_some {tokens : List Bytes} {type : Bytes} :
    typeFor ext tokens = some type ↔ tokens.head? = some type ∧ Lists tokens.tail ext := by
  cases tokens with
  | nil => exact iff_of_false (fun h => by cases h) fun h => by cases h.1
  | cons first tokens =>
    rw [typeFor]
    by_cases hlists : Lists tokens ext
    · simp [hlists]
    · simp [hlists]

theorem lists_iff {tokens : List Bytes} {token : Bytes} :
    Lists tokens (ascii "." ++ token) ↔ token ∈ tokens := by
  constructor
  · rintro ⟨token', hmem, heq⟩
    exact List.append_cancel_left heq ▸ hmem
  · exact fun h => ⟨token, h, rfl⟩

/-- What a line lists it gives a type to. -/
theorem exists_typeFor {tokens : List Bytes} {token : Bytes} (h : token ∈ tokens.tail) :
    ∃ type, tokens.head? = some type ∧ typeFor (ascii "." ++ token) tokens = some type := by
  cases tokens with
  | nil => cases h
  | cons first tokens => exact ⟨first, rfl, if_pos (lists_iff.mpr h)⟩

/-- There is no NUL in the tokens of a text. -/
theorem zero_notMem_of_text {line token : Bytes} (h : token ∈ fields (text line)) : 0 ∉ token :=
  fun hzero => ne_zero_of_mem_text (Tokens.mem_of_mem_tokens h 0 hzero) rfl

/-- A NUL is in one of the tokens. -/
theorem exists_token_of_zero {line : Bytes} (h : 0 ∈ line) : ∃ token ∈ fields line, 0 ∈ token := by
  have hflat : 0 ∈ (fields line).flatten := by
    rw [fields, Tokens.flatten_tokens]
    exact List.mem_filter.mpr ⟨h, by decide⟩
  exact List.mem_flatten.mp hflat

/-- A NUL that is in no extension is in the type. -/
theorem zero_mem_type {line type : Bytes} (h : 0 ∈ line) (hhead : (fields line).head? = some type)
    (hno : ∀ token ∈ (fields line).tail, 0 ∉ token) : 0 ∈ type := by
  obtain ⟨token, hmem, hzero⟩ := exists_token_of_zero h
  obtain ⟨tokens, htokens⟩ := List.head?_eq_some_iff.mp hhead
  rw [htokens] at hmem hno
  rcases List.mem_cons.mp hmem with rfl | hmem
  · exact hzero
  · exact absurd hzero (hno token hmem)

/-- If the type has a NUL in it the text of the line ends with it, and lists nothing. -/
theorem typeFor_text {line : Bytes} (h : 0 ∈ line)
    (hno : ∀ token ∈ (fields line).tail, 0 ∉ token) : typeFor ext (fields (text line)) = none := by
  cases hfields : fields (text line) with
  | nil => rfl
  | cons first tokens =>
    cases tokens with
    | nil =>
      rw [typeFor, if_neg]
      rintro ⟨token, hmem, -⟩
      cases hmem
    | cons second tokens =>
      -- with two tokens in the text the first one would be the type
      obtain ⟨rest, hrest⟩ := eq_text_append_of_lt (length_text_lt_length_iff.mpr h)
      obtain ⟨tokens', htokens⟩ := Tokens.tokens_append_of_two hfields (0 :: rest)
      rw [← hrest] at htokens
      have hhead : (fields line).head? = some first := by rw [fields, htokens, List.head?_cons]
      have hfirst : first ∈ fields (text line) := hfields ▸ List.mem_cons_self ..
      exact absurd (zero_mem_type h hhead hno) (zero_notMem_of_text hfirst)

/-- Whatever the texts list has no NUL in it. -/
theorem zero_notMem_of_textType {type : Bytes} (h : textType content ext = some type) :
    0 ∉ type ∧ 0 ∉ ext := by
  obtain ⟨line, -, htype⟩ := List.exists_of_findSome?_eq_some h
  obtain ⟨hhead, token, hmem, rfl⟩ := typeFor_eq_some.mp htype
  have htoken := zero_notMem_of_text (List.mem_of_mem_tail hmem)
  refine ⟨zero_notMem_of_text (List.mem_of_mem_head? hhead), ?_⟩
  rw [List.mem_append, not_or]
  exact ⟨by decide, htoken⟩

/-- In a loadable file the texts list what the lines do, but for the built-in types. -/
theorem Loadable.textType_eq (h : Loadable content) (hbuiltIn : find builtInTypes ext = none) :
    textType content ext = listedType content ext := by
  -- a line without a NUL is its text, and one with a NUL lists nothing new
  have htext : ∀ line ∈ typeLines content, 0 ∉ line → text line = line := fun line _ hzero =>
    text_eq_self fun c hc hnul => hzero (hnul ▸ hc)
  cases hlisted : listedType content ext with
  | none =>
    refine List.findSome?_eq_none_iff.mpr fun line hline => ?_
    by_cases hzero : 0 ∈ line
    · exact typeFor_text hzero (h.no_nul line hline)
    · rw [htext line hline hzero]
      exact List.findSome?_eq_none_iff.mp hlisted line hline
  | some type =>
    obtain ⟨before, line, after, hlines, htype, hbefore⟩ := List.findSome?_eq_some_iff.mp hlisted
    have hline : line ∈ typeLines content := by rw [hlines]; simp
    have hzero : 0 ∉ line := by
      intro hzero
      obtain ⟨-, token, hmem, rfl⟩ := typeFor_eq_some.mp htype
      rcases h.known before line after hlines hzero token hmem with hknown | ⟨earlier, hearlier, hlists⟩
      · rw [hbuiltIn] at hknown
        cases hknown
      · obtain ⟨first, -, hfirst⟩ := exists_typeFor hlists
        cases hfirst.symm.trans (hbefore earlier hearlier)
    refine List.findSome?_eq_some_iff.mpr ⟨before, line, after, hlines, ?_, fun earlier hearlier => ?_⟩
    · rw [htext line hline hzero]
      exact htype
    · have hmem : earlier ∈ typeLines content := by rw [hlines]; simp [hearlier]
      by_cases hzero' : 0 ∈ earlier
      · exact typeFor_text hzero' (h.no_nul earlier hmem)
      · rw [htext earlier hmem hzero']
        exact hbefore earlier hearlier

/-- No built-in extension has a NUL in it. -/
theorem find_builtInTypes_of_zero (h : 0 ∈ ext) : find builtInTypes ext = none := by
  have hall : ∀ row ∈ builtInTypes, 0 ∉ row.1 := by decide
  rw [find, Option.map_eq_none_iff, List.find?_eq_none]
  intro row hrow heq
  exact hall row hrow (of_decide_eq_true heq ▸ h)

/-- A file that is loaded has a token in the text of every line. -/
theorem LoadsTypes.has_type (h : LoadsTypes content) :
    ∀ line ∈ typeLines content, fields (text line) ≠ [] := by
  intro line hline hnone
  obtain ⟨typemap, hok, -⟩ := h
  exact init_error hline hnone hok

/-- In a file that is loaded as it should be the texts list what the lines do, but for the built-in
types. -/
theorem LoadsTypes.textType_eq (h : LoadsTypes content) (hbuiltIn : find builtInTypes ext = none) :
    textType content ext = listedType content ext := by
  obtain ⟨typemap', hok', hfind'⟩ := init_eq h.has_type
  obtain ⟨typemap, hok, hfind⟩ := h
  cases hok'.symm.trans hok
  have heq := (hfind' ext).symm.trans (hfind ext)
  rwa [hbuiltIn, Option.none_or, Option.none_or] at heq

theorem LoadsTypes.no_nul (h : LoadsTypes content) :
    ∀ line ∈ typeLines content, ∀ token ∈ (fields line).tail, 0 ∉ token := by
  intro line hline token htoken hzero
  have hmem : 0 ∈ ascii "." ++ token := List.mem_append_right _ hzero
  have heq := h.textType_eq (find_builtInTypes_of_zero hmem)
  cases htext : textType content (ascii "." ++ token) with
  | some type => exact (zero_notMem_of_textType htext).2 hmem
  | none =>
    rw [htext] at heq
    obtain ⟨type, -, htype⟩ := exists_typeFor htoken
    cases htype.symm.trans (List.findSome?_eq_none_iff.mp heq.symm line hline)

/-- Nothing new is listed with a type that has a NUL in it, since no text has such a type. -/
theorem LoadsTypes.known (h : LoadsTypes content) {before after : List Bytes} {line token : Bytes}
    (hlines : typeLines content = before ++ line :: after) (hzero : 0 ∈ line)
    (htoken : token ∈ (fields line).tail) :
    (find builtInTypes (ascii "." ++ token)).isSome ∨
      ∃ earlier ∈ before, token ∈ (fields earlier).tail := by
  have hline : line ∈ typeLines content := by rw [hlines]; simp
  obtain ⟨type, hhead, htype⟩ := exists_typeFor htoken
  by_contra hnew
  obtain ⟨hbuiltIn, hearlier⟩ := not_or.mp hnew
  have hbefore : ∀ earlier ∈ before, typeFor (ascii "." ++ token) (fields earlier) = none := by
    intro earlier hmem
    cases hfirst : typeFor (ascii "." ++ token) (fields earlier) with
    | none => rfl
    | some first =>
      exact absurd ⟨earlier, hmem, lists_iff.mp (typeFor_eq_some.mp hfirst).2⟩ hearlier
  have hlisted : listedType content (ascii "." ++ token) = some type :=
    List.findSome?_eq_some_iff.mpr ⟨before, line, after, hlines, htype, hbefore⟩
  have htext := (h.textType_eq (Option.not_isSome_iff_eq_none.mp hbuiltIn)).trans hlisted
  exact (zero_notMem_of_textType htext).1 (zero_mem_type hzero hhead (h.no_nul line hline))

theorem Loadable.loadsTypes (h : Loadable content) : LoadsTypes content := by
  obtain ⟨typemap, hok, hfind⟩ := init_eq h.has_type
  refine ⟨typemap, hok, fun ext => ?_⟩
  rw [hfind]
  cases hbuiltIn : find builtInTypes ext with
  | some v => rw [Option.some_or, Option.some_or]
  | none => rw [h.textType_eq hbuiltIn]

/-- **When the table is loaded correctly.** -/
theorem loadsTypes_iff (content : Bytes) : LoadsTypes content ↔ Loadable content := by
  constructor
  · intro h
    exact ⟨h.has_type, h.no_nul,
      fun before line after hlines hzero token htoken => h.known hlines hzero htoken⟩
  · exact Loadable.loadsTypes

/-- A line of one space: the loop starts behind the end of the vector. -/
theorem loadsTypes_blank : ¬LoadsTypes (ascii " \n") := by
  rintro ⟨typemap, hok, -⟩
  have hline : ascii " " ∈ typeLines (ascii " \n") := by decide
  exact init_error hline (by decide) hok

end File

end Sails.Net
