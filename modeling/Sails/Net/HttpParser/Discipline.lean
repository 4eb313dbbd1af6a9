import Sails.Net.HttpParser.Execute

/-!
# What the cases of the switch rely on and what they leave

At every byte the parser's record fits its state, and a mark is set exactly where the state says
so. `Plan.Disciplined` is what a case has to do for that; it is proved of every case once, and
every result about runs of the parser is derived from it.

- `Parser.Ok`: the record fits its state
- `MarkClass`: which mark is set, and in which of two runs
- `Plan.Disciplined`: no assertion fails, callbacks are made in their places, marks are kept
- `switch_disciplined`: every case of the switch is disciplined
-/

namespace Sails.HttpParser

open TransitionRun (Fault)
open CMemory
open Sails.Net (Callback)

/-! ## The record between two bytes -/

/-- The header states of `s_header_field`; in the others its switch fails an assertion. -/
def HeaderState.inField : HeaderState → Bool
  | matchingTransferEncodingChunked | matchingConnectionKeepAlive | matchingConnectionClose
  | transferEncodingChunked | connectionKeepAlive | connectionClose => false
  | _ => true

/-- The header states of `s_header_value`; in the others its switch fails an assertion. -/
def HeaderState.inValue : HeaderState → Bool
  | connection | transferEncoding => false
  | _ => true

/-- What a state says about the record. -/
def Parser.Fits (q : Parser) : Prop :=
  match q.state with
  | .reqMethod => q.index ≤ (methodString q.method).length
  | .headerField => q.headerState.inField = true
  | .headerValue => q.headerState.inValue = true
  | .chunkSizeStart => q.flags.chunked = true ∧ q.nread = 0
  | .chunkSize | .chunkParameters | .chunkSizeAlmostDone =>
    q.flags.chunked = true ∧ q.contentLength < ullongMax
  | .chunkData => q.flags.chunked = true ∧ q.contentLength ≠ 0 ∧ q.contentLength < ullongMax
  | .chunkDataAlmostDone => q.flags.chunked = true ∧ q.contentLength = 0
  | .chunkDataDone => q.flags.chunked = true
  | .bodyIdentity => q.contentLength ≠ 0 ∧ q.contentLength < ullongMax
  | _ => True

/-- There was no error, and `content_length` is a 64-bit number. -/
def Parser.Sound (q : Parser) : Prop := q.errno = .ok ∧ q.contentLength ≤ ullongMax

/-- The record between two bytes, as long as there was no error. -/
structure Parser.Ok (q : Parser) : Prop where
  sound : q.Sound
  fits : q.Fits

/-! ## Marks -/

/-- The states in which a piece of the body may be pending. -/
def State.inBody : State → Bool
  | chunkData | chunkDataAlmostDone | bodyIdentity | bodyIdentityEof => true
  | _ => false

/-- The marks of two runs of the parser over the same bytes, cut differently. -/
inductive MarkClass where
  /-- no mark is set -/
  | clear
  /-- the mark is set in both -/
  | set (k : DataKind)
  /-- the body mark is set in one; the other has handed over all it had, with this view -/
  | behind (view : Net.HttpParser)

/-- The marks at the start of the loop's body. -/
def MarkClass.Starts (m : MarkClass) (q : Parser) : Prop :=
  match q.state.resumes with
  | some k => m = .set k
  | none => m = .clear ∨ q.state.inBody = true ∧ (m = .set .body ∨ m = .behind q.view)

/-- The marks at the end of the loop's body. -/
def MarkClass.Ends (m : MarkClass) (s : State) : Prop :=
  match m with
  | .clear => s.resumes = none
  | .set k => s.resumes = some k ∨ k = .body ∧ s.inBody = true
  | .behind _ => False

/-- The mark may be set. -/
def MarkClass.Marks (m : MarkClass) (k : DataKind) : Prop :=
  match m with
  | .clear => True
  | .set l => l = k
  | .behind _ => k = .body

/-- The text behind the mark may be handed over. -/
def MarkClass.HandsOver (m : MarkClass) (k : DataKind) (q : Parser) : Prop :=
  match m with
  | .clear => True
  | .set l => l = k
  | .behind view => k = .body ∧ q.view = view

/-- A case that keeps to the rules, at a byte where the marks are as `m` says, if it is given this
byte only. -/
def Plan.Disciplined : MarkClass → Plan → Prop
  | m, .next q => m.Ends q.state ∧ q.Ok
  | _, .error e _ => e ≠ .ok
  | m, .mark k rest => m.Marks k ∧ rest.Disciplined (.set k)
  | m, .skip n rest => n = 0 ∧ rest.Disciplined m
  | m, .data k q rest => m.HandsOver k q ∧ q.Sound ∧ rest.Disciplined .clear
  | m, .dataNoadvance k q rest => m.HandsOver k q ∧ q.Sound ∧ rest.Disciplined .clear
  | m, .dataThrough k q rest => m = .set k ∧ q.Sound ∧ rest.Disciplined .clear
  | m, .messageBegin q rest => m = .clear ∧ q.Sound ∧ rest.Disciplined .clear
  | m, .messageComplete q rest => m = .clear ∧ q.Sound ∧ rest.Disciplined .clear
  | m, .headersComplete q rest => m = .clear ∧ q.Sound ∧ ∀ b, (rest b).Disciplined .clear
  | m, .exit q => m = .clear ∧ m.Ends q.state ∧ q.Ok ∧ q.upgrade = true
  | _, .fault _ => False

/-! ## The cases, one by one -/

section Cases

variable {q : Parser} {ch : UInt8} {m : MarkClass}

theorem Parser.ok_iff : q.Ok ↔ q.Sound ∧ q.Fits :=
  ⟨fun h => ⟨h.1, h.2⟩, fun h => ⟨h.1, h.2⟩⟩

attribute [local simp] Plan.Disciplined MarkClass.Ends MarkClass.Marks MarkClass.HandsOver
  State.resumes State.inBody Parser.ok_iff Parser.Sound Parser.Fits

theorem deadCase_disciplined (h : q.Ok) (hs : q.state = .dead) :
    (deadCase q ch).Disciplined .clear := by
  unfold deadCase
  split_ifs <;> simp [hs, h.sound.1, h.sound.2]

theorem expectCase_disciplined {c : UInt8} {s : State} (he : q.Sound)
    (hends : m.Ends s) (hfits : Parser.Fits { q with state := s }) :
    (expectCase c s q ch).Disciplined m := by
  unfold expectCase strictCheck
  split
  · simp
  · exact ⟨hends, he, hfits⟩

theorem furtherDigit_disciplined {value : Nat} {store : Nat → Parser} {e : Errno} (he : e ≠ .ok)
    (hends : ∀ v, m.Ends (store v).state) (hok : ∀ v, (store v).Ok) :
    (furtherDigit value store e ch).Disciplined m := by
  unfold furtherDigit
  split
  · exact he
  · exact ⟨hends _, hok _⟩

/-! ### The first line -/

theorem resOrRespHCase_disciplined (he : q.Sound) :
    (resOrRespHCase q ch).Disciplined .clear := by
  unfold resOrRespHCase
  split_ifs <;> simp [he.1, he.2, methodString, ascii]

theorem startResCase_disciplined (he : q.Sound) (hs : q.state = .startRes) :
    (startResCase q ch).Disciplined .clear := by
  unfold startResCase
  dsimp only
  split_ifs <;> simp [he.1, hs]

theorem resFirstHttpMajorCase_disciplined (he : q.Sound) :
    (resFirstHttpMajorCase q ch).Disciplined .clear := by
  unfold resFirstHttpMajorCase
  split <;> simp [he.1, he.2]

theorem httpMajorCase_disciplined {s : State} (he : q.Sound) (hfits : q.Fits)
    (hends : MarkClass.Ends .clear q.state) (hs : MarkClass.Ends .clear s)
    (hs' : Parser.Fits { q with state := s }) :
    (httpMajorCase s q ch).Disciplined .clear := by
  unfold httpMajorCase
  split_ifs
  · exact ⟨hs, he, hs'⟩
  · simp
  · exact furtherDigit_disciplined (by simp) (fun _ => hends) fun _ => ⟨he, hfits⟩

theorem firstHttpMinorCase_disciplined {s : State} (he : q.Sound)
    (hs : MarkClass.Ends .clear s) (hs' : ∀ v, Parser.Fits { q with httpMinor := v, state := s }) :
    (firstHttpMinorCase s q ch).Disciplined .clear := by
  unfold firstHttpMinorCase
  split
  · simp
  · exact ⟨hs, he, hs' _⟩

theorem httpMinorDigit_disciplined (he : q.Sound) (hfits : q.Fits)
    (hends : MarkClass.Ends .clear q.state) : (httpMinorDigit q ch).Disciplined .clear := by
  unfold httpMinorDigit
  split
  · simp
  · exact furtherDigit_disciplined (by simp) (fun _ => hends) fun _ => ⟨he, hfits⟩

theorem resHttpMinorCase_disciplined (he : q.Sound) (hs : q.state = .resHttpMinor) :
    (resHttpMinorCase q ch).Disciplined .clear := by
  unfold resHttpMinorCase
  split
  · simp [he.1, he.2]
  · exact httpMinorDigit_disciplined he (by simp [hs]) (by simp [hs])

theorem resFirstStatusCodeCase_disciplined (he : q.Sound)
    (hs : q.state = .resFirstStatusCode) : (resFirstStatusCodeCase q ch).Disciplined .clear := by
  unfold resFirstStatusCodeCase
  split_ifs <;> simp [he.1, he.2, hs]

theorem resStatusCodeCase_disciplined (he : q.Sound) (hs : q.state = .resStatusCode) :
    (resStatusCodeCase q ch).Disciplined .clear := by
  unfold resStatusCodeCase
  split_ifs
  · simp [he.1, he.2]
  · simp [he.1, he.2]
  · simp [he.1, he.2]
  · simp
  · exact furtherDigit_disciplined (by simp) (fun _ => by simp [hs]) fun _ => by
      simp [he.1, he.2, hs]

theorem resStatusStartCase_disciplined (he : q.Sound) :
    (resStatusStartCase q ch).Disciplined .clear := by
  unfold resStatusStartCase
  split_ifs <;> simp [he.1, he.2]

theorem resStatusCase_disciplined (he : q.Sound) (hs : q.state = .resStatus) :
    (resStatusCase q ch).Disciplined (.set .status) := by
  unfold resStatusCase
  split_ifs <;> simp [he.1, he.2, hs]

theorem length_methodString_pos (m : HttpMethod) : 0 < (methodString m).length := by
  cases m <;> decide

theorem length_methodString_lt (m : HttpMethod) : (methodString m).length < 255 := by
  cases m <;> decide

theorem startReqCase_disciplined (he : q.Sound) (hs : q.state = .startReq) :
    (startReqCase q ch).Disciplined .clear := by
  unfold startReqCase
  split_ifs
  · simp [he.1, he.2, hs]
  · simp
  · dsimp only
    split
    · simp
    · rename_i m _
      have hpos := length_methodString_pos m
      simp [he.1, Nat.one_le_iff_ne_zero, hpos.ne']

theorem startReqOrResCase_disciplined (he : q.Sound) (hs : q.state = .startReqOrRes) :
    (startReqOrResCase q ch).Disciplined .clear := by
  unfold startReqOrResCase
  split_ifs
  · simp [he.1, he.2, hs]
  · simp [he.1]
  · exact startReqCase_disciplined ⟨he.1, le_refl _⟩ rfl

/-- The method that takes over has its next character behind the index. -/
theorem index_le_of_otherMethod {m m' : HttpMethod} {i : Nat} (h : otherMethod m i ch = some m') :
    i + 1 ≤ (methodString m').length := by
  unfold otherMethod at h
  split_ifs at h <;> cases h <;> simp_all [methodString, ascii]

theorem reqMethodCase_disciplined (h : q.Ok) (hs : q.state = .reqMethod) :
    (reqMethodCase q ch).Disciplined .clear := by
  -- the index stays inside the method's name, NUL included
  have hi : q.index ≤ (methodString q.method).length := by simpa [Parser.Fits, hs] using h.fits
  have hlt := length_methodString_lt q.method
  have he := h.sound
  unfold reqMethodCase
  split_ifs with h0
  · simp
  · rw [List.getElem?_eq_getElem (by simpa using Nat.lt_succ_of_le hi)]
    dsimp only
    split_ifs with hspace hc
    · simp [he.1, he.2]
    -- the character is not the NUL behind the string
    · have hne : q.index ≠ (methodString q.method).length := by
        intro heq
        rw [List.getElem_append_right (by omega)] at hc
        simp [heq] at hc
        exact h0 hc
      have hmod : (q.index + 1) % 256 = q.index + 1 := Nat.mod_eq_of_lt (by omega)
      have hle : q.index + 1 ≤ (methodString q.method).length := by omega
      simp [hs, he.1, he.2, hmod, hle]
    · split
      · simp
      · rename_i m' hother
        have hle := index_le_of_otherMethod hother
        have hmod : (q.index + 1) % 256 = q.index + 1 := Nat.mod_eq_of_lt (by omega)
        simp [hs, he.1, he.2, hmod, hle]

/-- The states of the URL parser in which a URL may go on. -/
def State.inUrl : State → Bool
  | reqSchema | reqSchemaSlash | reqSchemaSlashSlash | reqServerStart | reqServer
  | reqServerWithAt | reqPath | reqQueryStringStart | reqQueryString | reqFragmentStart
  | reqFragment => true
  | _ => false

theorem serverChar_inUrl (ch : UInt8) :
    parseUrlChar.serverChar ch = .dead ∨ (parseUrlChar.serverChar ch).inUrl = true := by
  unfold parseUrlChar.serverChar
  split_ifs <;> simp [State.inUrl]

/-- The URL parser goes from one of its states to another, or dies. -/
theorem parseUrlChar_inUrl (s : State) (ch : UInt8) :
    parseUrlChar s ch = .dead ∨ (parseUrlChar s ch).inUrl = true := by
  unfold parseUrlChar
  by_cases hspace : ch = code ' ' ∨ ch = cr ∨ ch = lf
  · simp [hspace]
  by_cases htab : ch = 9 ∨ ch = 12
  · simp [hspace, htab]
  rw [if_neg hspace, if_neg htab]
  cases s
  case reqServerStart | reqServer => exact serverChar_inUrl ch
  case reqServerWithAt =>
    dsimp only
    split_ifs
    · simp
    · exact serverChar_inUrl ch
  case reqSpacesBeforeUrl | reqSchema | reqSchemaSlash | reqSchemaSlashSlash | reqPath
    | reqQueryStringStart | reqQueryString | reqFragmentStart | reqFragment =>
    dsimp only
    split_ifs <;> simp [State.inUrl]
  all_goals exact .inl rfl

theorem urlCharCase_disciplined (he : q.Sound) :
    (urlCharCase q ch).Disciplined (.set .url) := by
  unfold urlCharCase
  have hstate := parseUrlChar_inUrl q.state ch
  dsimp only
  split_ifs with hdead
  · simp
  · have hurl := hstate.resolve_left hdead
    generalize parseUrlChar q.state ch = s at hurl
    cases s <;> simp_all [State.inUrl]

theorem reqSpacesBeforeUrlCase_disciplined (he : q.Sound) (hs : q.state = .reqSpacesBeforeUrl) :
    (reqSpacesBeforeUrlCase q ch).Disciplined .clear := by
  unfold reqSpacesBeforeUrlCase
  split_ifs
  · simp [he.1, he.2, hs]
  · exact ⟨trivial, urlCharCase_disciplined he⟩
  · exact ⟨trivial, urlCharCase_disciplined he⟩

theorem reqSchemaCase_disciplined (he : q.Sound) :
    (reqSchemaCase q ch).Disciplined (.set .url) := by
  unfold reqSchemaCase
  split
  · simp
  · exact urlCharCase_disciplined he

theorem reqServerCase_disciplined (he : q.Sound) :
    (reqServerCase q ch).Disciplined (.set .url) := by
  unfold reqServerCase
  split_ifs
  · simp [he.1, he.2]
  · simp [he.1, he.2]
  · simp [he.1, he.2]
  · exact urlCharCase_disciplined he

theorem reqHttpStartCase_disciplined (he : q.Sound) (hs : q.state = .reqHttpStart) :
    (reqHttpStartCase q ch).Disciplined .clear := by
  unfold reqHttpStartCase
  split_ifs <;> simp [he.1, he.2, hs]

theorem reqFirstHttpMajorCase_disciplined (he : q.Sound) :
    (reqFirstHttpMajorCase q ch).Disciplined .clear := by
  unfold reqFirstHttpMajorCase
  split <;> simp [he.1, he.2]

theorem reqHttpMinorCase_disciplined (he : q.Sound) (hs : q.state = .reqHttpMinor) :
    (reqHttpMinorCase q ch).Disciplined .clear := by
  unfold reqHttpMinorCase
  split_ifs
  · simp [he.1, he.2]
  · simp [he.1, he.2]
  · exact httpMinorDigit_disciplined he (by simp [hs]) (by simp [hs])

theorem reqLineAlmostDoneCase_disciplined (he : q.Sound) :
    (reqLineAlmostDoneCase q ch).Disciplined .clear := by
  unfold reqLineAlmostDoneCase
  split <;> simp [he.1, he.2]

/-! ### The end of the headers, the body -/

theorem newMessage_cases (q : Parser) :
    newMessage q = .startReq ∨ newMessage q = .startRes ∨ newMessage q = .dead := by
  unfold newMessage startState
  split_ifs <;> simp

/-- A new message begins in a state that says nothing about the record. -/
theorem newMessage_ok (he : q.Sound) :
    MarkClass.Ends .clear (newMessage q) ∧ Parser.Ok { q with state := newMessage q } := by
  obtain h | h | h := newMessage_cases q <;> simp [h, he.1, he.2]

theorem completeMessage_disciplined {rest : Parser → Plan} (he : q.Sound)
    (hrest : rest = .next ∨ rest = .exit ∧ q.upgrade = true) :
    (completeMessage q rest).Disciplined .clear := by
  have hnew := newMessage_ok he
  obtain rfl | ⟨rfl, hupgrade⟩ := hrest
  · exact ⟨rfl, he, hnew⟩
  · exact ⟨rfl, he, rfl, hnew.1, hnew.2, hupgrade⟩

theorem headersDoneCase_disciplined (he : q.Sound) :
    (headersDoneCase q ch).Disciplined .clear := by
  unfold headersDoneCase strictCheck
  dsimp only
  split_ifs
  · simp
  · rename_i hupgrade
    exact completeMessage_disciplined he (.inr ⟨rfl, hupgrade⟩)
  · exact completeMessage_disciplined he (.inl rfl)
  · simp [he.1, he.2, *]
  · exact completeMessage_disciplined he (.inl rfl)
  · rename_i hmax
    have hlt : q.contentLength < ullongMax := lt_of_le_of_ne he.2 hmax
    simp [he.1, he.2, *]
  · exact completeMessage_disciplined he (.inl rfl)
  · simp [he.1, he.2]

theorem headersAlmostDoneCase_disciplined (he : q.Sound) :
    (headersAlmostDoneCase q ch).Disciplined .clear := by
  unfold headersAlmostDoneCase strictCheck
  split_ifs
  · simp
  · exact completeMessage_disciplined he (.inl rfl)
  · exact ⟨rfl, he, fun b => headersDoneCase_disciplined he⟩

/-- Of a body, given one byte. -/
theorem bodyIdentityCase_disciplined (h : q.Ok) (hs : q.state = .bodyIdentity)
    (hm : m = .clear ∨ m = .set .body ∨ m = .behind q.view) : (bodyIdentityCase q 1).Disciplined m := by
  have hlen : q.contentLength ≠ 0 ∧ q.contentLength < ullongMax := by
    simpa [Parser.Fits, hs] using h.fits
  have hmark : m.Marks .body := by obtain rfl | rfl | rfl := hm <;> simp
  have hread : min q.contentLength 1 = 1 := by omega
  have hlt : q.contentLength - 1 < ullongMax := by omega
  unfold bodyIdentityCase assert
  rw [if_pos (by simpa using ⟨hlen.1, hlen.2.ne⟩), hread]
  refine ⟨hmark, rfl, ?_⟩
  have hq : Parser.Sound { q with contentLength := q.contentLength - 1 } := ⟨h.sound.1, hlt.le⟩
  split
  · exact ⟨rfl, hq, completeMessage_disciplined hq (.inl rfl)⟩
  · rename_i hrest
    simp [hs, h.sound.1, hrest, hlt, hlt.le]

theorem bodyIdentityEofCase_disciplined (he : q.Sound) (hs : q.state = .bodyIdentityEof)
    (hm : m = .clear ∨ m = .set .body ∨ m = .behind q.view) : (bodyIdentityEofCase q 1).Disciplined m := by
  have hmark : m.Marks .body := by obtain rfl | rfl | rfl := hm <;> simp
  exact ⟨hmark, rfl, by simp [hs, he.1, he.2]⟩

theorem chunkSizeStartCase_disciplined (he : q.Sound) (hchunked : q.flags.chunked = true)
    (hnread : q.nread = 1) : (chunkSizeStartCase q ch).Disciplined .clear := by
  unfold chunkSizeStartCase assert
  rw [if_pos (by simpa using hnread), if_pos hchunked]
  split
  · simp
  · rename_i v hv
    have hlt := unhex_lt hv
    have hmax : v < ullongMax := by unfold ullongMax; omega
    simp [he.1, hchunked, hmax, hmax.le]

theorem chunkSizeCase_disciplined (he : q.Sound) (hs : q.state = .chunkSize)
    (hfits : q.Fits) : (chunkSizeCase q ch).Disciplined .clear := by
  have hsize : q.flags.chunked = true ∧ q.contentLength < ullongMax := by
    simpa [Parser.Fits, hs] using hfits
  unfold chunkSizeCase assert
  rw [if_pos hsize.1]
  split
  · simp [he.1, he.2, hsize]
  · split
    · split <;> simp [he.1, he.2, hsize]
    · rename_i v hv
      have hlt := unhex_lt hv
      split
      · simp
      · rename_i hover
        -- the check leaves room for one more digit
        have hmax : q.contentLength * 16 + v < ullongMax := by unfold ullongMax at hover ⊢; omega
        simp [he.1, hs, hsize.1, hmax, hmax.le]

theorem chunkParametersCase_disciplined (he : q.Sound) (hs : q.state = .chunkParameters)
    (hfits : q.Fits) : (chunkParametersCase q ch).Disciplined .clear := by
  have hsize : q.flags.chunked = true ∧ q.contentLength < ullongMax := by
    simpa [Parser.Fits, hs] using hfits
  unfold chunkParametersCase assert
  rw [if_pos hsize.1]
  split_ifs <;> simp [he.1, he.2, hs, hsize]

theorem chunkSizeAlmostDoneCase_disciplined (he : q.Sound)
    (hs : q.state = .chunkSizeAlmostDone) (hfits : q.Fits) :
    (chunkSizeAlmostDoneCase q ch).Disciplined .clear := by
  have hsize : q.flags.chunked = true ∧ q.contentLength < ullongMax := by
    simpa [Parser.Fits, hs] using hfits
  unfold chunkSizeAlmostDoneCase assert strictCheck
  rw [if_pos hsize.1]
  dsimp only
  split_ifs with hlf hzero
  · simp
  · simp [he.1, he.2]
  · simp [he.1, he.2, hsize, hzero]

theorem chunkDataCase_disciplined (h : q.Ok) (hs : q.state = .chunkData)
    (hm : m = .clear ∨ m = .set .body ∨ m = .behind q.view) : (chunkDataCase q 1).Disciplined m := by
  have hlen : q.flags.chunked = true ∧ q.contentLength ≠ 0 ∧ q.contentLength < ullongMax := by
    simpa [Parser.Fits, hs] using h.fits
  have hmark : m.Marks .body := by obtain rfl | rfl | rfl := hm <;> simp
  have hread : min q.contentLength 1 = 1 := by omega
  unfold chunkDataCase assert
  rw [if_pos hlen.1, if_pos (by simpa using ⟨hlen.2.1, hlen.2.2.ne⟩), hread]
  refine ⟨hmark, rfl, ?_⟩
  have hlt : q.contentLength - 1 < ullongMax := by omega
  have hq : Parser.Sound { q with contentLength := q.contentLength - 1 } := ⟨h.sound.1, hlt.le⟩
  dsimp only
  split
  · rename_i hzero
    exact ⟨.inr ⟨rfl, rfl⟩, hq, hlen.1, hzero⟩
  · rename_i hrest
    simp [hs, h.sound.1, hlen.1, hrest, hlt, hlt.le]

theorem chunkDataAlmostDoneCase_disciplined (he : q.Sound)
    (hs : q.state = .chunkDataAlmostDone) (hfits : q.Fits)
    (hm : m = .clear ∨ m = .set .body ∨ m = .behind q.view) : (chunkDataAlmostDoneCase q ch).Disciplined m := by
  have hlen : q.flags.chunked = true ∧ q.contentLength = 0 := by simpa [Parser.Fits, hs] using hfits
  -- the view says nothing about the state but whether the message is done
  have hview : Parser.view { q with state := .chunkDataDone } = q.view := by
    simp [Parser.view, bodyIsFinal, hs, shouldKeepAlive, messageNeedsEof]
  have hover : m.HandsOver .body { q with state := .chunkDataDone } := by
    obtain rfl | rfl | rfl := hm <;> simp [hview]
  unfold chunkDataAlmostDoneCase assert strictCheck
  rw [if_pos hlen.1, if_pos (by simpa using hlen.2)]
  split
  · simp
  · exact ⟨hover, he, by simp [he.1, he.2, hlen.1]⟩

theorem chunkDataDoneCase_disciplined (he : q.Sound) (hchunked : q.flags.chunked = true) :
    (chunkDataDoneCase q ch).Disciplined .clear := by
  unfold chunkDataDoneCase assert strictCheck
  rw [if_pos hchunked]
  split <;> simp [he.1, he.2, hchunked]

/-! ### Headers -/

theorem headerFieldStartCase_disciplined (he : q.Sound) :
    (headerFieldStartCase q ch).Disciplined .clear := by
  unfold headerFieldStartCase
  dsimp only
  split_ifs
  · simp [he.1, he.2]
  · exact headersAlmostDoneCase_disciplined he
  · simp
  all_goals simp [he.1, he.2, HeaderState.inField]

/-- Matching a constant changes the index and the header state only, and ends in the state behind
it or in `h_general`. -/
theorem matchNext_spec (lit : Bytes) (seen : HeaderState) (q : Parser) (c : UInt8) :
    ∃ i hd, matchNext lit seen q c = { q with index := i, headerState := hd } ∧
      (hd = q.headerState ∨ hd = seen ∨ hd = .general) := by
  unfold matchNext
  dsimp only
  split_ifs
  · exact ⟨_, .general, rfl, .inr (.inr rfl)⟩
  · exact ⟨_, seen, rfl, .inr (.inl rfl)⟩
  · exact ⟨_, q.headerState, rfl, .inl rfl⟩

/-- The switch of a header field keeps to its header states, and changes no more than these. -/
theorem fieldHeaderState_spec (ch c : UInt8) (hq : q.headerState.inField = true) :
    ∃ i hd, fieldHeaderState q ch c = some { q with index := i, headerState := hd } ∧
      hd.inField = true := by
  -- matching leads to a state of a name, or to none
  have hmatch : ∀ lit : Bytes, ∀ seen : HeaderState, seen.inField = true →
      ∃ i hd, some (matchNext lit seen q c) = some { q with index := i, headerState := hd } ∧
        hd.inField = true := by
    intro lit seen hseen
    obtain ⟨i, hd, heq, hcases⟩ := matchNext_spec lit seen q c
    refine ⟨i, hd, by rw [heq], ?_⟩
    obtain rfl | rfl | rfl := hcases
    · exact hq
    · exact hseen
    · rfl
  unfold fieldHeaderState
  cases h : q.headerState
  case general => exact ⟨q.index, .general, by simp [← h], rfl⟩
  case c | co | con =>
    refine ⟨_, _, rfl, ?_⟩
    split_ifs <;> rfl
  case matchingConnection | matchingProxyConnection | matchingContentLength
    | matchingTransferEncoding | matchingUpgrade => exact hmatch _ _ rfl
  case connection | contentLength | transferEncoding | upgrade =>
    dsimp only
    split
    · exact ⟨q.index, .general, rfl, rfl⟩
    · exact ⟨q.index, q.headerState, rfl, hq⟩
  all_goals simp [h, HeaderState.inField] at hq

theorem headerFieldCase_disciplined (h : q.Ok) (hs : q.state = .headerField) :
    (headerFieldCase q ch).Disciplined (.set .headerField) := by
  have hq : q.headerState.inField = true := by simpa [Parser.Fits, hs] using h.fits
  obtain ⟨i, hd, hstep, hin⟩ := fieldHeaderState_spec ch (token ch) hq
  unfold headerFieldCase
  dsimp only
  rw [hstep]
  split_ifs <;> simp [hs, hin, h.sound.1, h.sound.2]

/-- The first character of a value leaves one of the header states of `s_header_value`. -/
theorem firstOfValue_spec {q' : Parser} (he : q.Sound) (hs : q.state = .headerValue)
    (h : firstOfValue q ch = some q') : q'.Ok ∧ q'.state = .headerValue := by
  -- the first digit of a length does not overflow
  have hdigit : isNum ch = true → digit ch ≤ ullongMax := fun hnum => by
    have hlt := digit_lt hnum
    unfold ullongMax
    omega
  unfold firstOfValue at h
  dsimp only at h
  cases hd : q.headerState <;> simp only [hd] at h
  case contentLength =>
    split at h
    · cases h
    · rename_i hnum
      cases h
      have hle := hdigit (by simpa using hnum)
      simp [hs, he.1, hle, HeaderState.inValue]
  case connection | transferEncoding =>
    cases h
    simp only [Parser.ok_iff, Parser.Sound, Parser.Fits, hs, he.1, he.2, and_self, true_and,
      and_true]
    split_ifs <;> rfl
  all_goals
    cases h
    simp [hs, he.1, he.2, HeaderState.inValue]

theorem headerValueStartCase_disciplined (he : q.Sound) :
    (headerValueStartCase q ch).Disciplined .clear := by
  unfold headerValueStartCase
  refine ⟨trivial, ?_⟩
  dsimp only
  split
  · simp
  · rename_i q' hfirst
    obtain ⟨hok, hs⟩ := firstOfValue_spec (q := { q with state := .headerValue, index := 0 }) he rfl hfirst
    exact ⟨by simp [hs], hok⟩

theorem headerValueDiscardWsCase_disciplined (he : q.Sound) (hs : q.state = .headerValueDiscardWs) :
    (headerValueDiscardWsCase q ch).Disciplined .clear := by
  unfold headerValueDiscardWsCase
  split_ifs
  · simp [he.1, he.2, hs]
  · simp [he.1, he.2]
  · simp [he.1, he.2]
  · exact headerValueStartCase_disciplined he

theorem headerValueDiscardLwsCase_disciplined (he : q.Sound) :
    (headerValueDiscardLwsCase q ch).Disciplined .clear := by
  unfold headerValueDiscardLwsCase
  split
  · simp [he.1, he.2]
  · exact ⟨trivial, rfl, he, headerFieldStartCase_disciplined he⟩

/-- A header leaves a flag, nothing else. -/
theorem finishHeader_frame (q : Parser) : ∃ f, finishHeader q = { q with flags := f } := by
  unfold finishHeader
  split
  · exact ⟨_, rfl⟩
  · exact ⟨_, rfl⟩
  · exact ⟨_, rfl⟩
  · exact ⟨q.flags, rfl⟩

theorem headerValueLwsCase_disciplined (he : q.Sound) :
    (headerValueLwsCase q ch).Disciplined .clear := by
  unfold headerValueLwsCase
  split
  · exact headerValueStartCase_disciplined he
  · obtain ⟨f, hf⟩ := finishHeader_frame q
    rw [hf]
    exact headerFieldStartCase_disciplined he

/-- The switch of a header value keeps to its header states, and `content_length` to 64 bits. -/
theorem valueHeaderState_spec (ch : UInt8) (h : q.Ok) (hs : q.state = .headerValue) :
    valueHeaderState q ch = .invalidContentLength ∨
      ∃ q', valueHeaderState q ch = .go q' ∧ q'.Ok ∧ q'.state = .headerValue := by
  have hq : q.headerState.inValue = true := by simpa [Parser.Fits, hs] using h.fits
  have hgeneral : Parser.Ok { q with state := .headerValue, headerState := .general } := by
    simp [h.sound.1, h.sound.2, HeaderState.inValue]
  have hmatch : ∀ lit : Bytes, ∀ seen : HeaderState, seen.inValue = true →
      ∃ q', ValueChar.go (matchNext lit seen q (lower ch)) = .go q' ∧ q'.Ok ∧
        q'.state = .headerValue := by
    intro lit seen hseen
    obtain ⟨i, hd, heq, hcases⟩ := matchNext_spec lit seen q (lower ch)
    refine ⟨_, rfl, ?_, by rw [heq]; exact hs⟩
    have hin : hd.inValue = true := by
      obtain rfl | rfl | rfl := hcases
      · exact hq
      · exact hseen
      · rfl
    rw [heq]
    simp [hs, hin, h.sound.1, h.sound.2]
  unfold valueHeaderState
  cases hd : q.headerState
  case general => exact .inr ⟨q, rfl, h, hs⟩
  case connection | transferEncoding => simp [hd, HeaderState.inValue] at hq
  case contentLength =>
    dsimp only
    split_ifs with hspace hnum hover
    · exact .inr ⟨q, rfl, h, hs⟩
    · exact .inl rfl
    · exact .inl rfl
    · have hlt := digit_lt (by simpa using hnum)
      -- the check leaves room for one more digit
      have hle : q.contentLength * 10 + digit ch ≤ ullongMax := by unfold ullongMax at hover ⊢; omega
      exact .inr ⟨_, rfl, by simp [hs, HeaderState.inValue, h.sound.1, hle], hs⟩
  case matchingTransferEncodingChunked | matchingConnectionKeepAlive | matchingConnectionClose =>
    exact .inr (hmatch _ _ rfl)
  case transferEncodingChunked | connectionKeepAlive | connectionClose =>
    dsimp only
    split
    · exact .inr ⟨_, rfl, by simp [hs, h.sound.1, h.sound.2, HeaderState.inValue], hs⟩
    · exact .inr ⟨q, rfl, h, hs⟩
  all_goals exact .inr ⟨_, rfl, hgeneral, rfl⟩

theorem headerAlmostDoneCase_disciplined (he : q.Sound) :
    (headerAlmostDoneCase q ch).Disciplined .clear :=
  expectCase_disciplined he (by simp) (by simp)

theorem headerValueCase_disciplined (h : q.Ok) (hs : q.state = .headerValue) :
    (headerValueCase q ch).Disciplined (.set .headerValue) := by
  unfold headerValueCase
  split_ifs
  · simp [h.sound.1, h.sound.2]
  · exact ⟨rfl, h.sound, headerAlmostDoneCase_disciplined h.sound⟩
  · obtain hbad | ⟨q', hgo, hok, hs'⟩ := valueHeaderState_spec ch h hs
    · simp [hbad]
    · rw [hgo]
      exact ⟨by simp [hs'], hok⟩

/-! ### The switch -/

theorem count_state (q : Parser) : q.count.state = q.state := by
  unfold Parser.count
  split <;> rfl

theorem count_view (q : Parser) : q.count.view = q.view := by
  unfold Parser.count
  split <;> rfl

/-- The count of the header's bytes leaves the rest of the record alone. -/
theorem count_ok (h : q.Ok) (hs : q.state ≠ .chunkSizeStart) : q.count.Ok := by
  obtain ⟨hsound, hfits⟩ := h
  unfold Parser.count
  split
  · refine ⟨hsound, ?_⟩
    unfold Parser.Fits at hfits ⊢
    cases hq : q.state <;> simp_all
  · exact ⟨hsound, hfits⟩

theorem count_nread_one (h : q.nread = 0) (hs : q.state.parsingHeader = true) :
    q.count.nread = 1 := by
  simp [Parser.count, hs, h]

/-- In the states of a body the marks of two runs may differ. -/
theorem MarkClass.Starts.body (h : m.Starts q) (hs : q.state.inBody = true) :
    m = .clear ∨ m = .set .body ∨ m = .behind q.view := by
  unfold MarkClass.Starts at h
  cases hq : q.state <;> simp_all

/-- In the other states they do not. -/
theorem MarkClass.Starts.clear (h : m.Starts q) (hs : q.state.inBody = false)
    (hr : q.state.resumes = none) : m = .clear := by
  unfold MarkClass.Starts at h
  simp_all

theorem MarkClass.Starts.set {k : DataKind} (h : m.Starts q) (hr : q.state.resumes = some k) :
    m = .set k := by
  unfold MarkClass.Starts at h
  simp_all

/-- Every case of the switch keeps to the rules. -/
theorem switch_disciplined (h : q.Ok) (hm : m.Starts q) (ch : UInt8) :
    (switch q.count ch 1).Disciplined m := by
  have hcount := count_state q
  have hview := count_view q
  unfold switch
  cases hs : q.state <;> simp only [hcount, hs]
  case chunkSizeStart =>
    have hfits : q.flags.chunked = true ∧ q.nread = 0 := by simpa [Parser.Fits, hs] using h.fits
    obtain rfl := hm.clear (by simp [hs]) (by simp [hs])
    refine chunkSizeStartCase_disciplined ?_ ?_ (count_nread_one hfits.2 (by rw [hs]; rfl))
    · simpa [Parser.count, hs, State.parsingHeader] using h.sound
    · simpa [Parser.count, hs, State.parsingHeader] using hfits.1
  all_goals
    have hok : q.count.Ok := count_ok h (by simp [hs])
    have he := hok.sound
    rw [hs] at hcount
  case bodyIdentity =>
    exact bodyIdentityCase_disciplined hok hcount (hview ▸ hm.body (by simp [hs]))
  case bodyIdentityEof =>
    exact bodyIdentityEofCase_disciplined he hcount (hview ▸ hm.body (by simp [hs]))
  case chunkData => exact chunkDataCase_disciplined hok hcount (hview ▸ hm.body (by simp [hs]))
  case chunkDataAlmostDone =>
    exact chunkDataAlmostDoneCase_disciplined he hcount hok.fits (hview ▸ hm.body (by simp [hs]))
  case headerField =>
    obtain rfl := hm.set (k := .headerField) (by simp [hs])
    exact headerFieldCase_disciplined hok hcount
  case headerValue =>
    obtain rfl := hm.set (k := .headerValue) (by simp [hs])
    exact headerValueCase_disciplined hok hcount
  case resStatus =>
    obtain rfl := hm.set (k := .status) (by simp [hs])
    exact resStatusCase_disciplined he hcount
  case reqSchema | reqSchemaSlash | reqSchemaSlashSlash | reqServerStart =>
    obtain rfl := hm.set (k := .url) (by simp [hs])
    exact reqSchemaCase_disciplined he
  case reqServer | reqServerWithAt | reqPath | reqQueryStringStart | reqQueryString
    | reqFragmentStart | reqFragment =>
    obtain rfl := hm.set (k := .url) (by simp [hs])
    exact reqServerCase_disciplined he
  all_goals obtain rfl := hm.clear (by simp [hs]) (by simp [hs])
  case dead => exact deadCase_disciplined hok hcount
  case startReqOrRes => exact startReqOrResCase_disciplined he hcount
  case resOrRespH => exact resOrRespHCase_disciplined he
  case startRes => exact startResCase_disciplined he hcount
  case resFirstHttpMajor => exact resFirstHttpMajorCase_disciplined he
  case resHttpMajor | reqHttpMajor =>
    exact httpMajorCase_disciplined he hok.fits (by simp [hcount]) (by simp) (by simp)
  case resFirstHttpMinor | reqFirstHttpMinor =>
    exact firstHttpMinorCase_disciplined he (by simp) (by simp)
  case resHttpMinor => exact resHttpMinorCase_disciplined he hcount
  case resFirstStatusCode => exact resFirstStatusCodeCase_disciplined he hcount
  case resStatusCode => exact resStatusCodeCase_disciplined he hcount
  case resStatusStart => exact resStatusStartCase_disciplined he
  case startReq => exact startReqCase_disciplined he hcount
  case reqMethod => exact reqMethodCase_disciplined hok hcount
  case reqSpacesBeforeUrl => exact reqSpacesBeforeUrlCase_disciplined he hcount
  case reqHttpStart => exact reqHttpStartCase_disciplined he hcount
  case reqFirstHttpMajor => exact reqFirstHttpMajorCase_disciplined he
  case reqHttpMinor => exact reqHttpMinorCase_disciplined he hcount
  case reqLineAlmostDone => exact reqLineAlmostDoneCase_disciplined he
  case headerFieldStart => exact headerFieldStartCase_disciplined he
  case headerValueDiscardWs => exact headerValueDiscardWsCase_disciplined he hcount
  case headerValueDiscardLws => exact headerValueDiscardLwsCase_disciplined he
  case headerValueStart => exact headerValueStartCase_disciplined he
  case headerValueLws => exact headerValueLwsCase_disciplined he
  case headerAlmostDone => exact headerAlmostDoneCase_disciplined he
  case chunkSize => exact chunkSizeCase_disciplined he hcount hok.fits
  case chunkParameters => exact chunkParametersCase_disciplined he hcount hok.fits
  case chunkSizeAlmostDone => exact chunkSizeAlmostDoneCase_disciplined he hcount hok.fits
  case chunkDataDone =>
    have hchunked : q.count.flags.chunked = true := by
      simpa [Parser.Fits, hcount] using hok.fits
    exact chunkDataDoneCase_disciplined he hchunked
  case headersAlmostDone => exact headersAlmostDoneCase_disciplined he
  case headersDone => exact headersDoneCase_disciplined he
  case messageDone => exact completeMessage_disciplined he (.inl rfl)
  all_goals exact expectCase_disciplined he (by simp) (by simp)

end Cases

end Sails.HttpParser
