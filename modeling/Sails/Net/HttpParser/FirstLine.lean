import Sails.Net.Http.RequestGrammar
import Sails.Net.HttpParser.Reading

/-!
# Reading a request line

`METHOD SP url SP HTTP/major.minor CR LF`, part by part.

- `Reads.header`: a byte of the head of a message, which is counted
- `reads_method`, `reads_url`, `reads_version`: the parts
- `reads_requestLine`: the line
-/

namespace Sails.HttpParser

open CMemory
open Sails.Net (Callback)

variable {q : Parser} {w : List Callback} {ch : UInt8}

/-- A byte of the head, as long as the head is not too long. -/
theorem Reads.header {pending : Option (DataKind × Bytes)} {r' : Reader}
    (hs : q.state.parsingHeader = true) (hn : q.nread < httpMaxHeaderSize)
    (h : q.Ok → (switch { q with nread := q.nread + 1 } ch 1).apply ch pending w = some r') :
    Reads ⟨q, pending, w⟩ [ch] r' := by
  have hmax : httpMaxHeaderSize < 2 ^ 32 := by decide
  have hmod : (q.nread + 1) % 2 ^ 32 = q.nread + 1 := Nat.mod_eq_of_lt (by omega)
  have hcount : q.count = { q with nread := q.nread + 1 } := by
    rw [Parser.count, if_pos hs, hmod]
  refine Reads.byte ?_ (fun hok => hcount ▸ h hok)
  dsimp only
  rw [hcount]
  have hle : ¬ q.nread + 1 > httpMaxHeaderSize := by omega
  simp [Parser.overflows, hle]

/-! ## The method -/

/-- The method behind one more character, `i` characters behind the start. -/
def nextMethod (m : HttpMethod) (i : Nat) (ch : UInt8) : Option HttpMethod :=
  if ch = 0 then none
  else
    match (methodString m)[i]? with
    | none => none
    | some c => if ch = c then some m else otherMethod m i ch

/-- The method behind further characters. -/
def spell (m : HttpMethod) (i : Nat) : Bytes → Option HttpMethod
  | [] => some m
  | ch :: cs => (nextMethod m i ch).bind fun m => spell m (i + 1) cs

/-- The method a name stands for. -/
def methodOf (name : Bytes) : Option HttpMethod :=
  match name with
  | [] => none
  | c :: cs => if isAlpha c then (firstMethod c).bind fun first => spell first 1 cs else none

/-- The name of a method stands for it, whatever method its first letters stand for. -/
theorem methodOf_methodString (m : HttpMethod) : methodOf (methodString m) = some m := by
  cases m <;> decide

theorem nextMethod_apply {m m' : HttpMethod} {i : Nat} (h : nextMethod m i ch = some m')
    (hi : i < 255) (n : Nat) :
    (reqMethodCase { q with state := .reqMethod, method := m, index := i, nread := n } ch).apply ch
      none w =
      some ⟨{ q with state := .reqMethod, method := m', index := i + 1, nread := n }, none, w⟩ := by
  -- the index is an `unsigned char`, which the longest method does not fill
  have hmod : (i + 1) % 256 = i + 1 := Nat.mod_eq_of_lt (by omega)
  unfold nextMethod at h
  split at h
  · cases h
  · rename_i hzero
    split at h
    · cases h
    · rename_i c hc
      have hlen : i < (methodString m).length := (List.getElem?_eq_some_iff.mp hc).1
      have hget : (methodString m ++ [0])[i]? = some c := by rw [List.getElem?_append_left hlen, hc]
      -- no method's name has a NUL, so the character is not behind its end
      have hc0 : c ≠ 0 := by
        have hmem := List.mem_of_getElem? hc
        rintro rfl
        revert hmem
        cases m <;> decide
      unfold reqMethodCase
      rw [if_neg hzero]
      dsimp only
      rw [hget]
      dsimp only
      rw [if_neg (fun hspace => hc0 hspace.2)]
      -- either the name goes on, or another method goes on with this character
      split at h
      · rename_i heq
        obtain rfl := Option.some.inj h
        rw [if_pos heq, hmod]
        rfl
      · rename_i hne
        rw [if_neg hne, h]
        dsimp only
        rw [hmod]
        rfl

/-- Further characters of a method's name. -/
theorem reads_spell {m m' : HttpMethod} {i : Nat} {cs : Bytes} (h : spell m i cs = some m')
    (hi : i + cs.length ≤ 255) (hn : q.nread + cs.length ≤ httpMaxHeaderSize) :
    Reads ⟨{ q with state := .reqMethod, method := m, index := i }, none, w⟩ cs
      ⟨{ q with
        state := .reqMethod
        method := m'
        index := i + cs.length
        nread := q.nread + cs.length }, none, w⟩ := by
  -- by induction on the characters of the name
  induction cs generalizing q m i with
  | nil =>
    obtain rfl : m = m' := Option.some.inj h
    exact Reads.nil _
  | cons ch cs ih =>
    obtain ⟨m₁, hnext, hrest⟩ := Option.bind_eq_some_iff.mp h
    simp only [List.length_cons] at hi hn
    have hbyte : Reads ⟨{ q with state := .reqMethod, method := m, index := i }, none, w⟩ [ch]
        ⟨{ q with state := .reqMethod, method := m₁, index := i + 1, nread := q.nread + 1 }, none,
          w⟩ :=
      Reads.header rfl (by dsimp only; omega) fun _ => nextMethod_apply hnext (by omega) _
    have hcs := ih (q := { q with nread := q.nread + 1 }) hrest (by omega) (by dsimp only; omega)
    have hall := hbyte.cons hcs
    simp only [List.length_cons]
    rw [show i + (cs.length + 1) = i + 1 + cs.length by omega,
      show q.nread + (cs.length + 1) = q.nread + 1 + cs.length by omega]
    exact hall

theorem ne_lineEnd_of_isAlpha (h : isAlpha ch = true) : ¬ (ch = cr ∨ ch = lf) := by
  rintro (rfl | rfl) <;> revert h <;> decide

/-- The name of the method and the space behind it. -/
theorem reads_method (m : HttpMethod) (hs : q.state = .startReq)
    (hn : q.nread + (methodString m).length < httpMaxHeaderSize) :
    Reads ⟨q, none, w⟩ (methodString m ++ [code ' '])
      ⟨{ q with
        flags := .zero
        contentLength := ullongMax
        method := m
        index := (methodString m).length + 1
        state := .reqSpacesBeforeUrl
        nread := q.nread + (methodString m).length + 1 }, none, w ++ [.messageBegin]⟩ := by
  have hname := methodOf_methodString m
  have hlt := length_methodString_lt m
  unfold methodOf at hname
  split at hname
  · cases hname
  · rename_i c cs hstring
    split at hname
    · rename_i halpha
      obtain ⟨first, hfirst, hspell⟩ := Option.bind_eq_some_iff.mp hname
      rw [hstring, List.length_cons] at hlt hn ⊢
      -- the first letter
      have hletter : Reads ⟨q, none, w⟩ [c]
          ⟨{ q with
            flags := .zero
            contentLength := ullongMax
            method := first
            index := 1
            state := .reqMethod
            nread := q.nread + 1 }, none, w ++ [.messageBegin]⟩ := by
        refine Reads.header (by rw [hs]; rfl) (by omega) fun _ => ?_
        simp [switch, hs, startReqCase, ne_lineEnd_of_isAlpha halpha, halpha, hfirst, Plan.apply]
      have hletters := reads_spell
        (q := { q with flags := .zero, contentLength := ullongMax, nread := q.nread + 1 })
        (w := w ++ [.messageBegin]) hspell (by omega) (by dsimp only; omega)
      -- the space, where the name ends
      have hspace : Reads ⟨{ q with
            flags := .zero
            contentLength := ullongMax
            method := m
            index := 1 + cs.length
            state := .reqMethod
            nread := q.nread + 1 + cs.length }, none, w ++ [.messageBegin]⟩ [code ' ']
          ⟨{ q with
            flags := .zero
            contentLength := ullongMax
            method := m
            index := cs.length + 1 + 1
            state := .reqSpacesBeforeUrl
            nread := q.nread + (cs.length + 1) + 1 }, none, w ++ [.messageBegin]⟩ := by
        refine Reads.header rfl (by dsimp only; omega) fun _ => ?_
        have hget : (methodString m ++ [0])[1 + cs.length]? = some 0 := by
          rw [hstring]
          simp [Nat.add_comm 1]
        have hmod : (1 + cs.length + 1) % 256 = cs.length + 1 + 1 := by omega
        have hcount : q.nread + 1 + cs.length + 1 = q.nread + (cs.length + 1) + 1 := by omega
        simp [switch, reqMethodCase, hget, hmod, hcount, Plan.apply, code]
      exact (hletter.cons hletters).append hspace
    · cases hname

/-! ## The URL -/

/-- The state in which a URL is read; CONNECT takes an authority. -/
def urlStart (m : HttpMethod) : State :=
  if m = .connect then .reqServerStart else .reqSpacesBeforeUrl

/-- The state behind a URL. -/
def urlEnd (m : HttpMethod) (url : Bytes) : State := url.foldl parseUrlChar (urlStart m)

/-- The states in which a URL may end. -/
def State.endsUrl : State → Bool
  | reqServer | reqServerWithAt | reqPath | reqQueryStringStart | reqQueryString
  | reqFragmentStart | reqFragment => true
  | _ => false

/-- A character that leads on is neither a space nor part of a line end. -/
theorem ne_of_parseUrlChar {s : State} (h : parseUrlChar s ch ≠ .dead) :
    ch ≠ code ' ' ∧ ch ≠ cr ∧ ch ≠ lf := by
  by_contra hch
  apply h
  unfold parseUrlChar
  rw [if_pos]
  tauto

theorem urlCharCase_apply {t : Bytes} (h : parseUrlChar q.state ch ≠ .dead) :
    (urlCharCase q ch).apply ch (some (.url, t)) w =
      some ⟨{ q with state := parseUrlChar q.state ch }, some (.url, t ++ [ch]), w⟩ := by
  simp [urlCharCase, h, Plan.apply]

theorem parsingHeader_of_inUrl {s : State} (hs : s.inUrl = true) : s.parsingHeader = true := by
  cases s <;> first
    | rfl
    | exact absurd hs Bool.false_ne_true

/-- Within a URL every character goes to the URL parser. -/
theorem switch_inUrl (hs : q.state.inUrl = true) (hspace : ch ≠ code ' ') (hcr : ch ≠ cr)
    (hlf : ch ≠ lf) : switch q ch 1 = urlCharCase q ch := by
  have hline : ¬ (ch = cr ∨ ch = lf) := not_or.mpr ⟨hcr, hlf⟩
  have hschema : reqSchemaCase q ch = urlCharCase q ch :=
    if_neg (not_or.mpr ⟨hspace, hline⟩)
  have hserver : reqServerCase q ch = urlCharCase q ch := by
    rw [reqServerCase, if_neg hspace, if_neg hline]
  unfold switch
  cases hq : q.state <;> rw [hq] at hs <;> first
    | exact hschema
    | exact hserver
    | exact absurd hs Bool.false_ne_true

/-- Further characters of a URL. -/
theorem reads_urlChars {us t : Bytes} (hs : q.state.inUrl = true)
    (h : us.foldl parseUrlChar q.state ≠ .dead) (hn : q.nread + us.length ≤ httpMaxHeaderSize) :
    Reads ⟨q, some (.url, t), w⟩ us
      ⟨{ q with state := us.foldl parseUrlChar q.state, nread := q.nread + us.length },
        some (.url, t ++ us), w⟩ := by
  -- by induction on the characters: the parser runs the automaton of urls
  induction us generalizing q t with
  | nil =>
    rw [List.append_nil]
    exact Reads.nil _
  | cons ch us ih =>
    simp only [List.length_cons, List.foldl_cons] at h hn ⊢
    -- a character that ends the url's run would have killed it
    have hnext : parseUrlChar q.state ch ≠ .dead := by
      intro hdead
      rw [hdead, foldl_parseUrlChar_dead] at h
      exact h rfl
    obtain ⟨hspace, hcr, hlf⟩ := ne_of_parseUrlChar hnext
    have hin := (parseUrlChar_inUrl q.state ch).resolve_left hnext
    have hbyte : Reads ⟨q, some (.url, t), w⟩ [ch]
        ⟨{ q with state := parseUrlChar q.state ch, nread := q.nread + 1 }, some (.url, t ++ [ch]),
          w⟩ := by
      refine Reads.header ?_ (by omega) fun _ => ?_
      · exact parsingHeader_of_inUrl hs
      · rw [switch_inUrl (q := { q with nread := q.nread + 1 }) hs hspace hcr hlf]
        exact urlCharCase_apply (q := { q with nread := q.nread + 1 }) hnext
    have hmore := ih (q := { q with state := parseUrlChar q.state ch, nread := q.nread + 1 })
      (t := t ++ [ch]) hin h (by dsimp only; omega)
    rw [show q.nread + (us.length + 1) = q.nread + 1 + us.length by omega]
    rw [List.append_assoc, List.singleton_append] at hmore
    exact hbyte.cons hmore

/-- A URL that the parser accepts in a request with this method. -/
def UrlAccepted (m : HttpMethod) (url : Bytes) : Prop := (urlEnd m url).endsUrl = true

instance (m : HttpMethod) (url : Bytes) : Decidable (UrlAccepted m url) :=
  inferInstanceAs (Decidable (_ = true))

theorem urlStart_endsUrl (m : HttpMethod) : (urlStart m).endsUrl = false := by
  unfold urlStart
  split <;> rfl

/-- The URL and the space behind it. -/
theorem reads_url {url : Bytes} (h : UrlAccepted q.method url) (hs : q.state = .reqSpacesBeforeUrl)
    (hn : q.nread + url.length < httpMaxHeaderSize) :
    Reads ⟨q, none, w⟩ (url ++ [code ' '])
      ⟨{ q with state := .reqHttpStart, nread := q.nread + url.length + 1 }, none,
        w ++ [.requestUrl url]⟩ := by
  have hends : (urlEnd q.method url).endsUrl = true := h
  cases url with
  | nil => rw [urlEnd, List.foldl_nil, urlStart_endsUrl] at hends; cases hends
  | cons ch us =>
    rw [urlEnd, List.foldl_cons] at hends
    rw [List.length_cons] at hn ⊢
    have hdead : us.foldl parseUrlChar (parseUrlChar (urlStart q.method) ch) ≠ .dead := by
      intro hdead
      rw [hdead] at hends
      cases hends
    have hfirst : parseUrlChar (urlStart q.method) ch ≠ .dead := by
      intro heq
      rw [heq, foldl_parseUrlChar_dead] at hdead
      exact hdead rfl
    have hin := (parseUrlChar_inUrl (urlStart q.method) ch).resolve_left hfirst
    -- the first character sets the mark
    have hbyte : Reads ⟨q, none, w⟩ [ch]
        ⟨{ q with state := parseUrlChar (urlStart q.method) ch, nread := q.nread + 1 },
          some (.url, [ch]), w⟩ := by
      refine Reads.header (by rw [hs]; rfl) (by omega) fun _ => ?_
      simp only [switch, hs, reqSpacesBeforeUrlCase, if_neg (ne_of_parseUrlChar hfirst).1, Plan.apply]
      unfold urlStart at hfirst ⊢
      split_ifs at hfirst ⊢
      · exact urlCharCase_apply (t := []) hfirst
      · rw [← hs] at hfirst ⊢
        exact urlCharCase_apply (t := []) (q := { q with nread := q.nread + 1 }) hfirst
    have hmore := reads_urlChars (q := { q with
      state := parseUrlChar (urlStart q.method) ch
      nread := q.nread + 1 }) (t := [ch]) (w := w) hin hdead (by dsimp only; omega)
    have hspace : Reads
        ⟨{ q with
          state := us.foldl parseUrlChar (parseUrlChar (urlStart q.method) ch)
          nread := q.nread + 1 + us.length }, some (.url, [ch] ++ us), w⟩ [code ' ']
        ⟨{ q with state := .reqHttpStart, nread := q.nread + (us.length + 1) + 1 }, none,
          w ++ [.requestUrl (ch :: us)]⟩ := by
      generalize us.foldl parseUrlChar (parseUrlChar (urlStart q.method) ch) = s at hends
      refine Reads.header ?_ (by dsimp only; omega) fun _ => ?_
      · cases s <;> simp_all [State.endsUrl, State.parsingHeader]
      · have hcount : q.nread + 1 + us.length + 1 = q.nread + (us.length + 1) + 1 := by omega
        rw [hcount]
        cases s <;> first | rfl | (simp [State.endsUrl] at hends)
    exact (hbyte.cons hmore).append hspace

/-! ## The version -/

/-- The number that digits stand for, behind the number `v`. -/
def digitsFrom (v : Nat) (ds : Bytes) : Nat := ds.foldl (fun v d => v * 10 + digit d) v

theorem le_digitsFrom (v : Nat) (ds : Bytes) : v ≤ digitsFrom v ds := by
  induction ds generalizing v with
  | nil => exact le_refl v
  | cons d ds ih =>
    have hle := ih (v * 10 + digit d)
    rw [digitsFrom, List.foldl_cons]
    exact le_trans (by omega) hle

theorem furtherDigit_apply {value : Nat} {store : Nat → Parser} {e : Errno}
    (h : value * 10 + digit ch ≤ 999) :
    (furtherDigit value store e ch).apply ch none w =
      some ⟨store (value * 10 + digit ch), none, w⟩ := by
  unfold furtherDigit
  rw [if_neg (by omega)]
  rfl

/-- Further digits of the major number. -/
theorem reads_majorDigits {ds : Bytes} (hs : q.state = .reqHttpMajor)
    (hdigits : ∀ d ∈ ds, isNum d = true) (hle : digitsFrom q.httpMajor ds ≤ 999)
    (hn : q.nread + ds.length ≤ httpMaxHeaderSize) :
    Reads ⟨q, none, w⟩ ds
      ⟨{ q with httpMajor := digitsFrom q.httpMajor ds, nread := q.nread + ds.length }, none,
        w⟩ := by
  -- by induction on the digits: no prefix is over the bound the code checks
  induction ds generalizing q with
  | nil => exact Reads.nil _
  | cons d ds ih =>
    rw [List.length_cons] at hn ⊢
    have hd := hdigits d (List.mem_cons_self ..)
    have hdot : d ≠ code '.' := by rintro rfl; revert hd; decide
    have hfirst : q.httpMajor * 10 + digit d ≤ 999 := le_trans (le_digitsFrom _ ds) hle
    have hbyte : Reads ⟨q, none, w⟩ [d]
        ⟨{ q with httpMajor := q.httpMajor * 10 + digit d, nread := q.nread + 1 }, none, w⟩ := by
      refine Reads.header (by rw [hs]; rfl) (by omega) fun _ => ?_
      simp only [switch, hs, httpMajorCase, if_neg hdot, hd, Bool.not_true, Bool.false_eq_true,
        if_false]
      exact furtherDigit_apply hfirst
    have hmore := ih (q := { q with
      httpMajor := q.httpMajor * 10 + digit d
      nread := q.nread + 1 }) hs (fun d hd => hdigits d (List.mem_cons_of_mem _ hd)) hle
      (by dsimp only; omega)
    rw [show q.nread + (ds.length + 1) = q.nread + 1 + ds.length by omega]
    exact hbyte.cons hmore

/-- Further digits of the minor number. -/
theorem reads_minorDigits {ds : Bytes} (hs : q.state = .reqHttpMinor)
    (hdigits : ∀ d ∈ ds, isNum d = true) (hle : digitsFrom q.httpMinor ds ≤ 999)
    (hn : q.nread + ds.length ≤ httpMaxHeaderSize) :
    Reads ⟨q, none, w⟩ ds
      ⟨{ q with httpMinor := digitsFrom q.httpMinor ds, nread := q.nread + ds.length }, none,
        w⟩ := by
  -- by induction on the digits, as for the major number
  induction ds generalizing q with
  | nil => exact Reads.nil _
  | cons d ds ih =>
    rw [List.length_cons] at hn ⊢
    have hd := hdigits d (List.mem_cons_self ..)
    have hend : d ≠ cr ∧ d ≠ lf := by constructor <;> (rintro rfl; revert hd; decide)
    have hfirst : q.httpMinor * 10 + digit d ≤ 999 := le_trans (le_digitsFrom _ ds) hle
    have hbyte : Reads ⟨q, none, w⟩ [d]
        ⟨{ q with httpMinor := q.httpMinor * 10 + digit d, nread := q.nread + 1 }, none, w⟩ := by
      refine Reads.header (by rw [hs]; rfl) (by omega) fun _ => ?_
      simp only [switch, hs, reqHttpMinorCase, if_neg hend.1, if_neg hend.2, httpMinorDigit, hd,
        Bool.not_true, Bool.false_eq_true, if_false]
      exact furtherDigit_apply hfirst
    have hmore := ih (q := { q with
      httpMinor := q.httpMinor * 10 + digit d
      nread := q.nread + 1 }) hs (fun d hd => hdigits d (List.mem_cons_of_mem _ hd)) hle
      (by dsimp only; omega)
    rw [show q.nread + (ds.length + 1) = q.nread + 1 + ds.length by omega]
    exact hbyte.cons hmore

/-- A constant of the head, each of whose characters leads from one state to the next. -/
theorem reads_expected {c : UInt8} {s : State} (s' : State) (hs : q.state = s)
    (hhead : s.parsingHeader = true) (hn : q.nread < httpMaxHeaderSize)
    (hcase : ∀ q : Parser, q.state = s → switch q c 1 = .next { q with state := s' }) :
    Reads ⟨q, none, w⟩ [c] ⟨{ q with state := s', nread := q.nread + 1 }, none, w⟩ := by
  refine Reads.header (by rw [hs, hhead]) hn fun _ => ?_
  rw [hcase { q with nread := q.nread + 1 } hs]
  rfl

/-- `HTTP/`. -/
theorem reads_httpSlash (hs : q.state = .reqHttpStart) (hn : q.nread + 5 ≤ httpMaxHeaderSize) :
    Reads ⟨q, none, w⟩ (ascii "HTTP/")
      ⟨{ q with state := .reqFirstHttpMajor, nread := q.nread + 5 }, none, w⟩ := by
  have hh : Reads ⟨q, none, w⟩ [code 'H'] _ := reads_expected .reqHttpH hs rfl (by omega)
    fun q hq => by simp [switch, hq, reqHttpStartCase]
  have ht : Reads ⟨{ q with state := .reqHttpH, nread := q.nread + 1 }, none, w⟩ [code 'T'] _ :=
    reads_expected .reqHttpHT rfl rfl (by dsimp only; omega)
      fun q hq => by simp [switch, hq, expectCase, strictCheck]
  have htt : Reads ⟨{ q with state := .reqHttpHT, nread := q.nread + 2 }, none, w⟩ [code 'T'] _ :=
    reads_expected .reqHttpHTT rfl rfl (by dsimp only; omega)
      fun q hq => by simp [switch, hq, expectCase, strictCheck]
  have hp : Reads ⟨{ q with state := .reqHttpHTT, nread := q.nread + 3 }, none, w⟩ [code 'P'] _ :=
    reads_expected .reqHttpHTTP rfl rfl (by dsimp only; omega)
      fun q hq => by simp [switch, hq, expectCase, strictCheck]
  have hslash : Reads ⟨{ q with state := .reqHttpHTTP, nread := q.nread + 4 }, none, w⟩
      [code '/'] _ :=
    reads_expected .reqFirstHttpMajor rfl rfl (by dsimp only; omega)
      fun q hq => by simp [switch, hq, expectCase, strictCheck]
  exact hh.cons (ht.cons (htt.cons (hp.cons hslash)))

/-- The two numbers of a version, as the parser takes them. -/
structure Version where
  major : Bytes
  minor : Bytes
  major_digits : ∀ d ∈ major, isNum d = true
  minor_digits : ∀ d ∈ minor, isNum d = true
  /-- the major number does not begin with 0 -/
  major_first : ∃ d ds, major = d :: ds ∧ code '1' ≤ d
  minor_ne_nil : minor ≠ []
  major_le : digitsFrom 0 major ≤ 999
  minor_le : digitsFrom 0 minor ≤ 999

/-- `major.minor` and the line end. -/
def Version.text (v : Version) : Bytes := v.major ++ code '.' :: v.minor ++ [cr, lf]

/-- The first digit of a number stands for itself. -/
theorem digitsFrom_zero_cons (d : UInt8) (ds : Bytes) :
    digitsFrom 0 (d :: ds) = digitsFrom (digit d) ds := by
  rw [digitsFrom, List.foldl_cons, Nat.zero_mul, Nat.zero_add, digitsFrom]

theorem reads_version (v : Version) (hs : q.state = .reqFirstHttpMajor)
    (hn : q.nread + v.text.length ≤ httpMaxHeaderSize) :
    Reads ⟨q, none, w⟩ v.text
      ⟨{ q with
        state := .headerFieldStart
        httpMajor := digitsFrom 0 v.major
        httpMinor := digitsFrom 0 v.minor
        nread := q.nread + v.text.length }, none, w⟩ := by
  obtain ⟨d, ds, hmajor, hd1⟩ := v.major_first
  obtain ⟨e, es, hminor⟩ := List.exists_cons_of_ne_nil v.minor_ne_nil
  have hmd := v.major_digits
  have hed := v.minor_digits
  have hmle := v.major_le
  have hele := v.minor_le
  have hlen : v.text.length = ds.length + es.length + 5 := by
    simp only [Version.text, hmajor, hminor, List.length_append, List.length_cons, List.length_nil]
    omega
  rw [hmajor] at hmd hmle
  rw [hminor] at hed hele
  rw [digitsFrom_zero_cons] at hmle hele
  have hd := hmd d (List.mem_cons_self ..)
  have he := hed e (List.mem_cons_self ..)
  rw [hlen] at hn ⊢
  have htext : v.text = d :: (ds ++ code '.' :: e :: (es ++ [cr, lf])) := by
    simp [Version.text, hmajor, hminor]
  have hcount : q.nread + (ds.length + es.length + 5) =
      q.nread + 1 + ds.length + 1 + 1 + es.length + 1 + 1 := by omega
  rw [htext, hcount, hmajor, hminor, digitsFrom_zero_cons, digitsFrom_zero_cons]
  -- the first digit, the others, the dot, the digits behind it, the line end
  have hfirst : Reads ⟨q, none, w⟩ [d]
      ⟨{ q with httpMajor := digit d, state := .reqHttpMajor, nread := q.nread + 1 }, none, w⟩ := by
    have hrange : ¬ (d < code '1' ∨ d > code '9') := by
      simp only [isNum, Bool.and_eq_true, decide_eq_true_eq] at hd
      rw [not_or, UInt8.not_lt, UInt8.not_lt]
      exact ⟨hd1, hd.2⟩
    refine Reads.header (by rw [hs]; rfl) (by omega) fun _ => ?_
    simp only [switch, hs, reqFirstHttpMajorCase, if_neg hrange]
    rfl
  have hothers := reads_majorDigits (q := { q with
    httpMajor := digit d
    state := .reqHttpMajor
    nread := q.nread + 1 }) (w := w) rfl (fun x hx => hmd x (List.mem_cons_of_mem _ hx)) hmle
    (by dsimp only; omega)
  have hdot := reads_expected (q := { q with
    httpMajor := digitsFrom (digit d) ds
    state := .reqHttpMajor
    nread := q.nread + 1 + ds.length }) (w := w) (c := code '.') .reqFirstHttpMinor rfl
    rfl (by dsimp only; omega) fun q hq => by simp [switch, hq, httpMajorCase]
  have hminorFirst : Reads ⟨{ q with
        httpMajor := digitsFrom (digit d) ds
        state := .reqFirstHttpMinor
        nread := q.nread + 1 + ds.length + 1 }, none, w⟩ [e]
      ⟨{ q with
        httpMajor := digitsFrom (digit d) ds
        httpMinor := digit e
        state := .reqHttpMinor
        nread := q.nread + 1 + ds.length + 1 + 1 }, none, w⟩ := by
    refine Reads.header rfl (by dsimp only; omega) fun _ => ?_
    simp [switch, firstHttpMinorCase, he, Plan.apply]
  have hminorOthers := reads_minorDigits (q := { q with
    httpMajor := digitsFrom (digit d) ds
    httpMinor := digit e
    state := .reqHttpMinor
    nread := q.nread + 1 + ds.length + 1 + 1 }) (w := w) rfl
    (fun x hx => hed x (List.mem_cons_of_mem _ hx)) hele (by dsimp only; omega)
  have hcr := reads_expected (q := { q with
    httpMajor := digitsFrom (digit d) ds
    httpMinor := digitsFrom (digit e) es
    state := .reqHttpMinor
    nread := q.nread + 1 + ds.length + 1 + 1 + es.length }) (w := w) (c := cr)
    .reqLineAlmostDone rfl rfl (by dsimp only; omega)
    fun q hq => by simp [switch, hq, reqHttpMinorCase]
  have hlf := reads_expected (q := { q with
    httpMajor := digitsFrom (digit d) ds
    httpMinor := digitsFrom (digit e) es
    state := .reqLineAlmostDone
    nread := q.nread + 1 + ds.length + 1 + 1 + es.length + 1 }) (w := w) (c := lf)
    .headerFieldStart rfl rfl (by dsimp only; omega)
    fun q hq => by simp [switch, hq, reqLineAlmostDoneCase]
  exact hfirst.cons (hothers.append (hdot.cons (hminorFirst.cons (hminorOthers.append (hcr.cons hlf)))))

/-! ## The line -/

/-- A request line. -/
structure RequestLine where
  method : HttpMethod
  url : Bytes
  version : Version
  accepted : UrlAccepted method url

def RequestLine.text (l : RequestLine) : Bytes :=
  methodString l.method ++ [code ' '] ++ (l.url ++ [code ' ']) ++ ascii "HTTP/" ++ l.version.text

/-- The record behind a request line. -/
def RequestLine.record (l : RequestLine) (q : Parser) : Parser :=
  { q with
    flags := .zero
    contentLength := ullongMax
    method := l.method
    index := (methodString l.method).length + 1
    httpMajor := digitsFrom 0 l.version.major
    httpMinor := digitsFrom 0 l.version.minor
    state := .headerFieldStart
    nread := q.nread + l.text.length }

/-- **A request line** begins a message and hands over its URL. -/
theorem reads_requestLine (l : RequestLine) (hs : q.state = .startReq)
    (hn : q.nread + l.text.length ≤ httpMaxHeaderSize) :
    Reads ⟨q, none, w⟩ l.text
      ⟨l.record q, none, w ++ [.messageBegin, .requestUrl l.url]⟩ := by
  have hlen : l.text.length =
      (methodString l.method).length + 1 + (l.url.length + 1) + 5 + l.version.text.length := by
    simp only [RequestLine.text, List.length_append, List.length_singleton]
    rfl
  have hcount : q.nread + l.text.length = q.nread + (methodString l.method).length + 1 +
      l.url.length + 1 + 5 + l.version.text.length := by omega
  -- method, url, `HTTP/` and version, one behind the other
  have hmethod := reads_method (w := w) l.method hs (by omega)
  have hurl := reads_url (q := { q with
    flags := .zero
    contentLength := ullongMax
    method := l.method
    index := (methodString l.method).length + 1
    state := .reqSpacesBeforeUrl
    nread := q.nread + (methodString l.method).length + 1 }) (w := w ++ [.messageBegin])
    l.accepted rfl (by dsimp only; omega)
  have hslash := reads_httpSlash (q := { q with
    flags := .zero
    contentLength := ullongMax
    method := l.method
    index := (methodString l.method).length + 1
    state := .reqHttpStart
    nread := q.nread + (methodString l.method).length + 1 + l.url.length + 1 })
    (w := w ++ [.messageBegin] ++ [.requestUrl l.url]) rfl (by dsimp only; omega)
  have hversion := reads_version (q := { q with
    flags := .zero
    contentLength := ullongMax
    method := l.method
    index := (methodString l.method).length + 1
    state := .reqFirstHttpMajor
    nread := q.nread + (methodString l.method).length + 1 + l.url.length + 1 + 5 })
    (w := w ++ [.messageBegin] ++ [.requestUrl l.url]) l.version rfl (by dsimp only; omega)
  rw [RequestLine.record, hcount]
  rw [List.append_assoc, List.singleton_append] at hslash hversion hurl
  exact ((hmethod.append hurl).append hslash).append hversion

end Sails.HttpParser
