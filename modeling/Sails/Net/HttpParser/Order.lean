import Sails.Net.HttpParser.Runs

/-!
# The order of the callbacks

A message begins, has the pieces of its url or of its status, names and values with a name in front,
the end of its headers, the pieces of its body, and perhaps names and values again. Callers rely on
this order, so it is proved of every run, whatever is read and whatever the callbacks return.

- `Phase`, `Phase.next`: the order
- `Part.allows`: the phases that a state of the parser may be in
- `Plan.Ordered`, `switch_ordered`: every case of the switch keeps the order
- `calls_ordered`: every sequence of calls does
-/

namespace Sails.HttpParser

open TransitionRun
open CMemory
open Sails.Net (Callback)

/-! ## The order -/

/-- Where a message is, by the callbacks made of it. -/
inductive Phase where
  /-- between two messages -/
  | idle
  | begun
  /-- a piece of the url, of the status -/
  | url | status
  /-- at least one name -/
  | headers
  /-- the headers are complete -/
  | complete
  | body
  /-- at least one name behind the body -/
  | trailers
  deriving DecidableEq

/-- The phase behind a piece of a text; `none` where it may not come. -/
def Phase.nextText : Phase → DataKind → Option Phase
  | begun, .url | url, .url => some url
  | begun, .status | status, .status => some status
  | begun, .headerField | url, .headerField | status, .headerField | headers, .headerField
  | headers, .headerValue => some headers
  | complete, .body | body, .body => some body
  | complete, .headerField | body, .headerField | trailers, .headerField
  | trailers, .headerValue => some trailers
  | _, _ => none

/-- The phase behind a callback; `none` where it may not come. Only in front of a response the
beginning may be said more than once. -/
def Phase.next (responses : Bool) : Phase → Callback → Option Phase
  | p, .messageBegin => if p = idle ∨ responses = true ∧ p = begun then some begun else none
  | p, .headersComplete _ =>
    if p = begun ∨ p = url ∨ p = status ∨ p = headers then some complete else none
  | p, .messageComplete _ => if p = complete ∨ p = body ∨ p = trailers then some idle else none
  | p, .requestUrl _ => p.nextText .url
  | p, .responseStatus _ => p.nextText .status
  | p, .headerField _ => p.nextText .headerField
  | p, .headerValue _ => p.nextText .headerValue
  | p, .body _ _ => p.nextText .body

theorem next_callback (b : Bool) (p : Phase) (k : DataKind) (q : Parser) (text : Bytes) :
    p.next b (k.callback q text) = p.nextText k := by
  cases k <;> rfl

/-- The phase behind callbacks, from between two messages on; `none` if they are not in order. -/
def phaseOf (responses : Bool) (made : List Callback) : Option Phase :=
  made.foldlM (Phase.next responses) .idle

/-- The callbacks have been made in order. -/
def InOrder (responses : Bool) (made : List Callback) : Prop :=
  (phaseOf responses made).isSome = true

theorem phaseOf_concat {b : Bool} {made : List Callback} {p : Phase} (h : phaseOf b made = some p)
    (c : Callback) : phaseOf b (made ++ [c]) = p.next b c := by
  have hfold : made.foldlM (Phase.next b) .idle = some p := h
  rw [phaseOf, List.foldlM_append, hfold]
  exact bind_pure (p.next b c)

/-! ## The parts of a message -/

/-- What the parser is reading. -/
inductive Part where
  | idle
  /-- nothing, where a response may begin -/
  | idleBoth | idleResponse
  /-- the first line, up to the url or the status -/
  | start | startBoth
  | url | status
  /-- a name, or the blank line -/
  | names
  | values
  | body
  /-- the body of a response, up to the end of the stream -/
  | bodyEof

def State.part : State → Part
  | dead | startReq => .idle
  | startReqOrRes => .idleBoth
  | startRes => .idleResponse
  | resOrRespH => .startBoth
  | resH | resHT | resHTT | resHTTP | resFirstHttpMajor | resHttpMajor
  | resFirstHttpMinor | resHttpMinor | resFirstStatusCode | resStatusCode | resStatusStart
  | reqMethod | reqSpacesBeforeUrl => .start
  | resStatus | resLineAlmostDone => .status
  | reqSchema | reqSchemaSlash | reqSchemaSlashSlash | reqServerStart | reqServer | reqServerWithAt
  | reqPath | reqQueryStringStart | reqQueryString | reqFragmentStart | reqFragment | reqHttpStart
  | reqHttpH | reqHttpHT | reqHttpHTT | reqHttpHTTP | reqFirstHttpMajor | reqHttpMajor
  | reqFirstHttpMinor | reqHttpMinor | reqLineAlmostDone => .url
  | headerFieldStart | headerField | headersAlmostDone => .names
  | headerValueDiscardWs | headerValueDiscardWsAlmostDone | headerValueDiscardLws | headerValueStart
  | headerValue | headerValueLws | headerAlmostDone => .values
  | chunkSizeStart | chunkSize | chunkParameters | chunkSizeAlmostDone | headersDone | chunkData
  | chunkDataAlmostDone | chunkDataDone | bodyIdentity | messageDone => .body
  | bodyIdentityEof => .bodyEof

/-- The phases of a message whose part is read; `trailing` is the flag. -/
def Part.allows (responses trailing : Bool) : Part → Phase → Bool
  | idle, .idle => true
  | idleBoth, .idle | idleResponse, .idle | idleResponse, .begun => responses
  | start, .begun => !trailing
  | startBoth, .begun => responses && !trailing
  | url, .begun | url, .url => !trailing
  | status, .begun | status, .status => !trailing
  | names, .begun | names, .url | names, .status | names, .headers => !trailing
  | names, .complete | names, .body | names, .trailers => trailing
  | values, .headers => !trailing
  | values, .trailers => trailing
  | body, .complete | body, .body => true
  | bodyEof, .complete | bodyEof, .body => responses
  | _, _ => false

section Parts

variable {b t : Bool} {p : Phase}

attribute [local simp] Part.allows

theorem allows_idle : Part.idle.allows b t p = true ↔ p = .idle := by
  cases p <;> simp

theorem allows_idleBoth : Part.idleBoth.allows b t p = true ↔ b = true ∧ p = .idle := by
  cases p <;> simp

theorem allows_idleResponse :
    Part.idleResponse.allows b t p = true ↔ b = true ∧ (p = .idle ∨ p = .begun) := by
  cases p <;> simp

theorem allows_start : Part.start.allows b t p = true ↔ t = false ∧ p = .begun := by
  cases p <;> simp

theorem allows_startBoth :
    Part.startBoth.allows b t p = true ↔ b = true ∧ t = false ∧ p = .begun := by
  cases p <;> simp

theorem allows_url : Part.url.allows b t p = true ↔ t = false ∧ (p = .begun ∨ p = .url) := by
  cases p <;> simp

theorem allows_status :
    Part.status.allows b t p = true ↔ t = false ∧ (p = .begun ∨ p = .status) := by
  cases p <;> simp

theorem allows_names : Part.names.allows b t p = true ↔
    t = false ∧ (p = .begun ∨ p = .url ∨ p = .status ∨ p = .headers) ∨
      t = true ∧ (p = .complete ∨ p = .body ∨ p = .trailers) := by
  cases p <;> simp

theorem allows_values :
    Part.values.allows b t p = true ↔ t = false ∧ p = .headers ∨ t = true ∧ p = .trailers := by
  cases p <;> simp

theorem allows_body : Part.body.allows b t p = true ↔ p = .complete ∨ p = .body := by
  cases p <;> simp

end Parts

/-- The record may be in this phase. -/
def Parser.Allows (q : Parser) (responses : Bool) (p : Phase) : Prop :=
  q.state.part.allows responses q.flags.trailing p = true ∧ (responses = true ∨ q.type = .request)

/-! ## The cases of the switch -/

/-- The callbacks of a case are in order, from the phase `p` on; `o` is the mark that is set. -/
def Plan.Ordered (responses : Bool) : Option DataKind → Phase → Plan → Prop
  | _, p, .next q => q.Allows responses p
  | _, _, .error _ _ => True
  | _, p, .mark k rest => rest.Ordered responses (some k) p
  | o, p, .skip _ rest => rest.Ordered responses o p
  | o, p, .data k _ rest | o, p, .dataNoadvance k _ rest | o, p, .dataThrough k _ rest =>
    if o = none then rest.Ordered responses none p else ∃ p', p.nextText k = some p' ∧ rest.Ordered responses none p'
  | o, p, .messageBegin _ rest => ∃ p', p.next responses .messageBegin = some p' ∧ rest.Ordered responses o p'
  | o, p, .messageComplete q rest =>
    ∃ p', p.next responses (.messageComplete q.view) = some p' ∧ rest.Ordered responses o p'
  | o, p, .headersComplete q rest =>
    ∃ p', p.next responses (.headersComplete q.view) = some p' ∧ ∀ b, (rest b).Ordered responses o p'
  | _, p, .exit q => q.Allows responses p
  | _, _, .fault _ => True

section Cases

variable {q : Parser} {ch : UInt8} {p : Phase} {o : Option DataKind} {b : Bool}

attribute [local simp] Plan.Ordered Parser.Allows State.part allows_idle allows_idleBoth
  allows_idleResponse allows_start allows_startBoth allows_url allows_status allows_names Phase.next
  Phase.nextText Flags.zero

theorem deadCase_ordered (h : q.Allows b p) : (deadCase q ch).Ordered b none p := by
  unfold deadCase
  split_ifs
  · exact h
  · trivial

/-- A constant of the message leads from one state to the next within a part. -/
theorem expectCase_ordered {c : UInt8} {s : State} (h : Parser.Allows { q with state := s } b p) :
    (expectCase c s q ch).Ordered b o p := by
  unfold expectCase strictCheck
  split
  · trivial
  · exact h

theorem furtherDigit_ordered {value : Nat} {store : Nat → Parser} {e : Errno}
    (h : ∀ v, (store v).Allows b p) : (furtherDigit value store e ch).Ordered b o p := by
  unfold furtherDigit
  split
  · trivial
  · exact h _

/-! ### The first line -/

theorem resOrRespHCase_ordered (h : q.Allows b p) (hs : q.state = .resOrRespH) :
    (resOrRespHCase q ch).Ordered b none p := by
  unfold resOrRespHCase
  split_ifs <;> cases p <;> simp_all

theorem startResCase_ordered (h : q.Allows b p) (hs : q.state = .startRes) :
    (startResCase q ch).Ordered b none p := by
  unfold startResCase
  dsimp only
  split_ifs <;> cases p <;> simp_all

theorem startReqCase_ordered (h : q.Allows b p) (hs : q.state = .startReq) :
    (startReqCase q ch).Ordered b none p := by
  unfold startReqCase
  split_ifs
  · exact h
  · simp
  · dsimp only
    split
    · simp
    · cases p <;> simp_all

theorem startReqOrResCase_ordered (h : q.Allows b p) (hs : q.state = .startReqOrRes) :
    (startReqOrResCase q ch).Ordered b none p := by
  unfold startReqOrResCase
  split_ifs
  · exact h
  · cases p <;> simp_all
  · exact startReqCase_ordered (by cases p <;> simp_all) rfl

theorem resFirstHttpMajorCase_ordered (h : q.Allows b p) (hs : q.state = .resFirstHttpMajor) :
    (resFirstHttpMajorCase q ch).Ordered b none p := by
  unfold resFirstHttpMajorCase
  split <;> simp_all

theorem httpMajorCase_ordered {s : State} (h : q.Allows b p)
    (hs : Parser.Allows { q with state := s } b p) : (httpMajorCase s q ch).Ordered b none p := by
  unfold httpMajorCase
  split_ifs
  · exact hs
  · trivial
  · exact furtherDigit_ordered fun _ => h

theorem firstHttpMinorCase_ordered {s : State} (hs : Parser.Allows { q with state := s } b p) :
    (firstHttpMinorCase s q ch).Ordered b none p := by
  unfold firstHttpMinorCase
  split
  · trivial
  · exact hs

theorem httpMinorDigit_ordered (h : q.Allows b p) : (httpMinorDigit q ch).Ordered b none p := by
  unfold httpMinorDigit
  split
  · trivial
  · exact furtherDigit_ordered fun _ => h

theorem resHttpMinorCase_ordered (h : q.Allows b p) (hs : q.state = .resHttpMinor) :
    (resHttpMinorCase q ch).Ordered b none p := by
  unfold resHttpMinorCase
  split
  · simp_all
  · exact httpMinorDigit_ordered h

theorem resFirstStatusCodeCase_ordered (h : q.Allows b p) (hs : q.state = .resFirstStatusCode) :
    (resFirstStatusCodeCase q ch).Ordered b none p := by
  unfold resFirstStatusCodeCase
  split_ifs <;> simp_all

theorem resStatusCodeCase_ordered (h : q.Allows b p) (hs : q.state = .resStatusCode) :
    (resStatusCodeCase q ch).Ordered b none p := by
  unfold resStatusCodeCase
  split_ifs
  · simp_all
  · cases p <;> simp_all
  · cases p <;> simp_all
  · trivial
  · exact furtherDigit_ordered fun _ => h

theorem resStatusStartCase_ordered (h : q.Allows b p) (hs : q.state = .resStatusStart) :
    (resStatusStartCase q ch).Ordered b none p := by
  unfold resStatusStartCase
  split_ifs <;> cases p <;> simp_all

theorem resStatusCase_ordered (h : q.Allows b p) (hs : q.state = .resStatus) :
    (resStatusCase q ch).Ordered b (some .status) p := by
  unfold resStatusCase
  split_ifs <;> cases p <;> simp_all

theorem reqMethodCase_ordered (h : q.Allows b p) (hs : q.state = .reqMethod) :
    (reqMethodCase q ch).Ordered b none p := by
  unfold reqMethodCase
  split_ifs
  · trivial
  · split
    · trivial
    · split_ifs
      · simp_all
      · simp_all
      · split <;> simp_all

/-- The url goes on, or is refused. -/
theorem urlCharCase_ordered (h : p = .begun ∨ p = .url) (ht : q.flags.trailing = false)
    (hr : b = true ∨ q.type = .request) :
    (urlCharCase q ch).Ordered b (some .url) p := by
  unfold urlCharCase
  have hstate := parseUrlChar_inUrl q.state ch
  dsimp only
  split_ifs with hdead
  · trivial
  · have hurl := hstate.resolve_left hdead
    generalize parseUrlChar q.state ch = s at hurl
    obtain rfl | rfl := h <;> cases s <;> simp_all [State.inUrl]

/-- The phases of a url. -/
theorem of_allows_url (h : q.Allows b p) (hs : q.state.part = .url) :
    (p = .begun ∨ p = .url) ∧ q.flags.trailing = false ∧ (b = true ∨ q.type = .request) := by
  rw [Parser.Allows, hs, allows_url] at h
  exact ⟨h.1.2, h.1.1, h.2⟩

theorem reqSpacesBeforeUrlCase_ordered (h : q.Allows b p) (hs : q.state = .reqSpacesBeforeUrl) :
    (reqSpacesBeforeUrlCase q ch).Ordered b none p := by
  have hbegun : p = .begun ∧ q.flags.trailing = false := by cases p <;> simp_all
  unfold reqSpacesBeforeUrlCase
  split_ifs
  · exact h
  · exact urlCharCase_ordered (.inl hbegun.1) hbegun.2 h.2
  · exact urlCharCase_ordered (.inl hbegun.1) hbegun.2 h.2

theorem reqSchemaCase_ordered (h : q.Allows b p) (hs : q.state.part = .url) :
    (reqSchemaCase q ch).Ordered b (some .url) p := by
  obtain ⟨hp, ht, hr⟩ := of_allows_url h hs
  unfold reqSchemaCase
  split
  · trivial
  · exact urlCharCase_ordered hp ht hr

theorem reqServerCase_ordered (h : q.Allows b p) (hs : q.state.part = .url) :
    (reqServerCase q ch).Ordered b (some .url) p := by
  obtain ⟨hp, ht, hr⟩ := of_allows_url h hs
  unfold reqServerCase
  split_ifs
  · obtain rfl | rfl := hp <;> simp [ht, hr]
  · obtain rfl | rfl := hp <;> simp [ht, hr]
  · obtain rfl | rfl := hp <;> simp [ht, hr]
  · exact urlCharCase_ordered hp ht hr

theorem reqHttpStartCase_ordered (h : q.Allows b p) (hs : q.state = .reqHttpStart) :
    (reqHttpStartCase q ch).Ordered b none p := by
  unfold reqHttpStartCase
  split_ifs <;> simp_all

theorem reqFirstHttpMajorCase_ordered (h : q.Allows b p) (hs : q.state = .reqFirstHttpMajor) :
    (reqFirstHttpMajorCase q ch).Ordered b none p := by
  unfold reqFirstHttpMajorCase
  split <;> simp_all

theorem reqHttpMinorCase_ordered (h : q.Allows b p) (hs : q.state = .reqHttpMinor) :
    (reqHttpMinorCase q ch).Ordered b none p := by
  unfold reqHttpMinorCase
  split_ifs
  · simp_all
  · cases p <;> simp_all
  · exact httpMinorDigit_ordered h

theorem reqLineAlmostDoneCase_ordered (h : q.Allows b p) (hs : q.state = .reqLineAlmostDone) :
    (reqLineAlmostDoneCase q ch).Ordered b none p := by
  unfold reqLineAlmostDoneCase
  split
  · trivial
  · cases p <;> simp_all

/-! ### The end of the headers, the body -/

/-- A message is complete, and the next may begin. -/
theorem completeMessage_ordered {rest : Parser → Plan} (hp : p = .complete ∨ p = .body ∨ p = .trailers)
    (hr : b = true ∨ q.type = .request) (hrest : rest = .next ∨ rest = .exit) :
    (completeMessage q rest).Ordered b none p := by
  have hnew : Parser.Allows { q with state := newMessage q } b .idle := by
    unfold newMessage startState
    split_ifs <;> simp_all
  obtain rfl | rfl := hrest
  · exact ⟨.idle, by simp [hp], hnew⟩
  · exact ⟨.idle, by simp [hp], hnew⟩

/-- The phases of a body. -/
theorem of_allows_body (h : q.Allows b p) (hs : q.state.part = .body) :
    (p = .complete ∨ p = .body) ∧ (b = true ∨ q.type = .request) := by
  rw [Parser.Allows, hs, allows_body] at h
  exact h

theorem allows_of_body (hp : p = .complete ∨ p = .body) (hr : b = true ∨ q.type = .request)
    (hs : q.state.part = .body) : q.Allows b p := by
  rw [Parser.Allows, hs, allows_body]
  exact ⟨hp, hr⟩

theorem body_nextText (hp : p = .complete ∨ p = .body) : p.nextText .body = some .body := by
  obtain rfl | rfl := hp <;> rfl

theorem headersDoneCase_ordered (hp : p = .complete ∨ p = .body)
    (hr : b = true ∨ q.type = .request) : (headersDoneCase q ch).Ordered b none p := by
  have hdone : ∀ {q : Parser} {rest : Parser → Plan}, (b = true ∨ q.type = .request) →
      rest = .next ∨ rest = .exit → (completeMessage q rest).Ordered b none p :=
    fun hr hrest => completeMessage_ordered (hp.imp_right .inl) hr hrest
  unfold headersDoneCase strictCheck
  dsimp only
  split_ifs with _ _ _ _ _ _ hneeds
  · trivial
  · exact hdone hr (.inr rfl)
  · exact hdone hr (.inl rfl)
  · exact allows_of_body hp hr rfl
  · exact hdone hr (.inl rfl)
  · exact allows_of_body hp hr rfl
  · exact hdone hr (.inl rfl)
  -- only a response is read up to the end of the stream
  · have hb : b = true := hr.resolve_right fun hreq => hneeds (.inl hreq)
    obtain rfl | rfl := hp <;> exact ⟨hb, .inl hb⟩

theorem headersAlmostDoneCase_ordered (h : q.Allows b p) (hs : q.state.part = .names) :
    (headersAlmostDoneCase q ch).Ordered b none p := by
  rw [Parser.Allows, hs] at h
  unfold headersAlmostDoneCase strictCheck
  split_ifs with hlf htrailing
  · trivial
  · exact completeMessage_ordered (by cases p <;> simp_all) h.2 (.inl rfl)
  · exact ⟨.complete, by cases p <;> simp_all, fun _ => headersDoneCase_ordered (.inl rfl) h.2⟩

theorem messageDoneCase_ordered (hp : p = .complete ∨ p = .body)
    (hr : b = true ∨ q.type = .request) : (messageDoneCase q).Ordered b none p :=
  completeMessage_ordered (hp.imp_right .inl) hr (.inl rfl)

theorem bodyIdentityCase_ordered (h : q.Allows b p) (hs : q.state = .bodyIdentity) (avail : Nat) :
    (bodyIdentityCase q avail).Ordered b o p := by
  obtain ⟨hp, hr⟩ := of_allows_body h (by rw [hs]; rfl)
  unfold bodyIdentityCase assert
  dsimp only
  split
  · simp only [Plan.Ordered]
    split
    · simp only [Plan.Ordered, reduceCtorEq, if_false]
      exact ⟨.body, body_nextText hp, messageDoneCase_ordered (.inr rfl) hr⟩
    · exact allows_of_body hp hr (by rw [hs]; rfl)
  · trivial

theorem chunkDataCase_ordered (h : q.Allows b p) (hs : q.state = .chunkData) (avail : Nat) :
    (chunkDataCase q avail).Ordered b o p := by
  obtain ⟨hp, hr⟩ := of_allows_body h (by rw [hs]; rfl)
  unfold chunkDataCase assert
  dsimp only
  split
  · split
    · simp only [Plan.Ordered]
      split
      · exact allows_of_body hp hr rfl
      · exact allows_of_body hp hr (by rw [hs]; rfl)
    · trivial
  · trivial

theorem chunkDataAlmostDoneCase_ordered (h : q.Allows b p) (hs : q.state = .chunkDataAlmostDone) :
    (chunkDataAlmostDoneCase q ch).Ordered b o p := by
  obtain ⟨hp, hr⟩ := of_allows_body h (by rw [hs]; rfl)
  unfold chunkDataAlmostDoneCase assert strictCheck
  split
  · split
    · split
      · trivial
      · simp only [Plan.Ordered]
        split
        · exact allows_of_body hp hr rfl
        · exact ⟨.body, body_nextText hp, allows_of_body (.inr rfl) hr rfl⟩
    · trivial
  · trivial

theorem chunkSizeStartCase_ordered (h : q.Allows b p) (hs : q.state = .chunkSizeStart) :
    (chunkSizeStartCase q ch).Ordered b none p := by
  unfold chunkSizeStartCase assert
  split
  · split
    · split <;> simp_all
    · trivial
  · trivial

theorem chunkSizeCase_ordered (h : q.Allows b p) (hs : q.state = .chunkSize) :
    (chunkSizeCase q ch).Ordered b none p := by
  obtain ⟨hp, hr⟩ := of_allows_body h (by rw [hs]; rfl)
  unfold chunkSizeCase assert
  split
  · split
    · exact allows_of_body hp hr rfl
    · split
      · split
        · exact allows_of_body hp hr rfl
        · trivial
      · split
        · trivial
        · exact allows_of_body hp hr (by rw [hs]; rfl)
  · trivial

theorem chunkParametersCase_ordered (h : q.Allows b p) (hs : q.state = .chunkParameters) :
    (chunkParametersCase q ch).Ordered b none p := by
  obtain ⟨hp, hr⟩ := of_allows_body h (by rw [hs]; rfl)
  unfold chunkParametersCase assert
  split
  · split
    · exact allows_of_body hp hr rfl
    · exact h
  · trivial

theorem chunkSizeAlmostDoneCase_ordered (h : q.Allows b p) (hs : q.state = .chunkSizeAlmostDone) :
    (chunkSizeAlmostDoneCase q ch).Ordered b none p := by
  obtain ⟨hp, hr⟩ := of_allows_body h (by rw [hs]; rfl)
  unfold chunkSizeAlmostDoneCase assert strictCheck
  split
  · dsimp only
    split_ifs
    · trivial
    · obtain rfl | rfl := hp <;> simpa using hr
    · exact allows_of_body hp hr rfl
  · trivial

theorem chunkDataDoneCase_ordered (h : q.Allows b p) (hs : q.state = .chunkDataDone) :
    (chunkDataDoneCase q ch).Ordered b none p := by
  obtain ⟨hp, hr⟩ := of_allows_body h (by rw [hs]; rfl)
  unfold chunkDataDoneCase assert strictCheck
  split
  · split
    · trivial
    · exact allows_of_body hp hr rfl
  · trivial

/-! ### Headers -/

theorem headerFieldStartCase_ordered (h : q.Allows b p) (hs : q.state.part = .names) :
    (headerFieldStartCase q ch).Ordered b none p := by
  have hnames : ∀ {q' : Parser}, q'.state.part = .names → q'.flags = q.flags → q'.type = q.type →
      q'.Allows b p := by
    intro q' hs' hf ht
    rw [Parser.Allows, hs', hf, ht, ← hs]
    exact h
  unfold headerFieldStartCase
  dsimp only
  split_ifs
  · exact hnames rfl rfl rfl
  · exact headersAlmostDoneCase_ordered (hnames rfl rfl rfl) rfl
  · trivial
  all_goals exact hnames rfl rfl rfl

/-- The phase behind a name. -/
theorem names_nextText (h : q.Allows b p) (hs : q.state.part = .names) :
    ∃ p', p.nextText .headerField = some p' ∧
      ∀ q' : Parser, q'.state.part = .values ∨ q'.state.part = .names → q'.flags = q.flags →
        q'.type = q.type → q'.Allows b p' := by
  rw [Parser.Allows, hs, allows_names] at h
  obtain ⟨⟨ht, hp⟩ | ⟨ht, hp⟩, hr⟩ := h
  · refine ⟨.headers, by obtain rfl | rfl | rfl | rfl := hp <;> rfl, fun q' hs' hf htype => ?_⟩
    rw [Parser.Allows, hf, htype, ht]
    obtain hs' | hs' := hs' <;> rw [hs'] <;> exact ⟨rfl, hr⟩
  · refine ⟨.trailers, by obtain rfl | rfl | rfl := hp <;> rfl, fun q' hs' hf htype => ?_⟩
    rw [Parser.Allows, hf, htype, ht]
    obtain hs' | hs' := hs' <;> rw [hs'] <;> exact ⟨rfl, hr⟩

/-- The switch of a header field changes the index and the header state only. -/
theorem fieldHeaderState_frame {c : UInt8} {q' : Parser} (h : fieldHeaderState q ch c = some q') :
    q'.state = q.state ∧ q'.flags = q.flags ∧ q'.type = q.type := by
  have hmatch : ∀ lit seen, (matchNext lit seen q c).state = q.state ∧
      (matchNext lit seen q c).flags = q.flags ∧ (matchNext lit seen q c).type = q.type := by
    intro lit seen
    obtain ⟨i, hd, heq, -⟩ := matchNext_spec lit seen q c
    rw [heq]
    exact ⟨rfl, rfl, rfl⟩
  unfold fieldHeaderState at h
  split at h
  case h_5 | h_6 | h_7 | h_8 | h_9 => exact Option.some.inj h ▸ hmatch _ _
  case h_10 | h_11 | h_12 | h_13 =>
    obtain rfl := Option.some.inj h
    split <;> exact ⟨rfl, rfl, rfl⟩
  case h_14 => cases h
  all_goals
    obtain rfl := Option.some.inj h
    exact ⟨rfl, rfl, rfl⟩

theorem headerFieldCase_ordered (h : q.Allows b p) (hs : q.state = .headerField) :
    (headerFieldCase q ch).Ordered b (some .headerField) p := by
  obtain ⟨p', hp', hallows⟩ := names_nextText h (by rw [hs]; rfl)
  unfold headerFieldCase
  dsimp only
  split_ifs
  · split
    · trivial
    · rename_i hstate
      obtain ⟨hs', hf, ht⟩ := fieldHeaderState_frame hstate
      unfold Plan.Ordered Parser.Allows
      rw [hs', hf, ht]
      exact h
  · simp only [Plan.Ordered, reduceCtorEq, if_false]
    exact ⟨p', hp', hallows _ (.inl rfl) rfl rfl⟩
  · trivial

/-- The phases of a value. -/
theorem values_nextText (h : q.Allows b p) (hs : q.state.part = .values) :
    p.nextText .headerValue = some p ∧
      ∀ q' : Parser, q'.state.part = .values ∨ q'.state.part = .names →
        q'.flags.trailing = q.flags.trailing → q'.type = q.type → q'.Allows b p := by
  rw [Parser.Allows, hs, allows_values] at h
  obtain ⟨⟨ht, rfl⟩ | ⟨ht, rfl⟩, hr⟩ := h
  all_goals
    refine ⟨rfl, fun q' hs' hf htype => ?_⟩
    rw [Parser.Allows, hf, htype, ht]
    obtain hs' | hs' := hs' <;> rw [hs'] <;> exact ⟨rfl, hr⟩

/-- The first character of a value leaves the state and the flag alone. -/
theorem firstOfValue_frame {q' : Parser} (h : firstOfValue q ch = some q') :
    q'.state = q.state ∧ q'.flags.trailing = q.flags.trailing ∧ q'.type = q.type := by
  unfold firstOfValue at h
  dsimp only at h
  split at h
  case h_3 =>
    split at h
    · cases h
    · cases h
      exact ⟨rfl, rfl, rfl⟩
  all_goals
    cases h
    exact ⟨rfl, rfl, rfl⟩

theorem headerValueStartCase_ordered (h : q.Allows b p) (hs : q.state.part = .values) :
    (headerValueStartCase q ch).Ordered b none p := by
  obtain ⟨-, hallows⟩ := values_nextText h hs
  unfold headerValueStartCase
  dsimp only
  simp only [Plan.Ordered]
  split
  · trivial
  · rename_i hfirst
    obtain ⟨hs', hf, ht⟩ := firstOfValue_frame hfirst
    exact hallows _ (.inl (by rw [hs']; rfl)) hf ht

theorem headerValueDiscardWsCase_ordered (h : q.Allows b p) (hs : q.state = .headerValueDiscardWs) :
    (headerValueDiscardWsCase q ch).Ordered b none p := by
  obtain ⟨-, hallows⟩ := values_nextText h (by rw [hs]; rfl)
  unfold headerValueDiscardWsCase
  split_ifs
  · exact h
  · exact hallows _ (.inl rfl) rfl rfl
  · exact hallows _ (.inl rfl) rfl rfl
  · exact headerValueStartCase_ordered h (by rw [hs]; rfl)

theorem headerValueDiscardLwsCase_ordered (h : q.Allows b p)
    (hs : q.state = .headerValueDiscardLws) : (headerValueDiscardLwsCase q ch).Ordered b none p := by
  obtain ⟨hnext, hallows⟩ := values_nextText h (by rw [hs]; rfl)
  unfold headerValueDiscardLwsCase
  dsimp only
  split
  · exact hallows _ (.inl rfl) rfl rfl
  · simp only [Plan.Ordered, reduceCtorEq, if_false]
    exact ⟨p, hnext, headerFieldStartCase_ordered (hallows _ (.inr rfl) rfl rfl) rfl⟩

theorem headerValueLwsCase_ordered (h : q.Allows b p) (hs : q.state = .headerValueLws) :
    (headerValueLwsCase q ch).Ordered b none p := by
  obtain ⟨-, hallows⟩ := values_nextText h (by rw [hs]; rfl)
  unfold headerValueLwsCase
  split
  · exact headerValueStartCase_ordered (hallows _ (.inl rfl) rfl rfl) rfl
  · have hfinish : (finishHeader q).flags.trailing = q.flags.trailing ∧
        (finishHeader q).type = q.type := by
      unfold finishHeader
      split <;> exact ⟨rfl, rfl⟩
    exact headerFieldStartCase_ordered (hallows _ (.inr rfl) hfinish.1 hfinish.2) rfl

/-- The switch of a header value keeps to the value. -/
theorem valueHeaderState_frame {q' : Parser} (h : valueHeaderState q ch = .go q') :
    (q'.state = q.state ∨ q'.state = .headerValue) ∧ q'.flags = q.flags ∧ q'.type = q.type := by
  -- matching a name against a word moves the index and the header state only
  have hmatch : ∀ lit seen, (matchNext lit seen q (lower ch)).state = q.state ∧
      (matchNext lit seen q (lower ch)).flags = q.flags ∧
        (matchNext lit seen q (lower ch)).type = q.type := by
    intro lit seen
    obtain ⟨i, hd, heq, -⟩ := matchNext_spec lit seen q (lower ch)
    rw [heq]
    exact ⟨rfl, rfl, rfl⟩
  unfold valueHeaderState at h
  cases hd : q.headerState <;> simp only [hd] at h
  case contentLength =>
    split_ifs at h <;> cases h <;> exact ⟨.inl rfl, rfl, rfl⟩
  case matchingTransferEncodingChunked | matchingConnectionKeepAlive | matchingConnectionClose =>
    obtain rfl := ValueChar.go.inj h
    exact ⟨.inl (hmatch _ _).1, (hmatch _ _).2⟩
  case transferEncodingChunked | connectionKeepAlive | connectionClose =>
    obtain rfl := ValueChar.go.inj h
    split <;> exact ⟨.inl rfl, rfl, rfl⟩
  case general =>
    obtain rfl := ValueChar.go.inj h
    exact ⟨.inl rfl, rfl, rfl⟩
  case connection | transferEncoding => cases h
  all_goals
    obtain rfl := ValueChar.go.inj h
    exact ⟨.inr rfl, rfl, rfl⟩

theorem headerValueCase_ordered (h : q.Allows b p) (hs : q.state = .headerValue) :
    (headerValueCase q ch).Ordered b (some .headerValue) p := by
  obtain ⟨hnext, hallows⟩ := values_nextText h (by rw [hs]; rfl)
  unfold headerValueCase
  split_ifs
  · simp only [Plan.Ordered, reduceCtorEq, if_false]
    exact ⟨p, hnext, hallows _ (.inl rfl) rfl rfl⟩
  · simp only [Plan.Ordered, reduceCtorEq, if_false]
    exact ⟨p, hnext, expectCase_ordered (hallows _ (.inl rfl) rfl rfl)⟩
  · split
    · rename_i hgo
      obtain ⟨hs', hf, ht⟩ := valueHeaderState_frame hgo
      refine hallows _ (.inl ?_) (by rw [hf]) ht
      obtain hs' | hs' := hs' <;> rw [hs'] <;> first | rfl | (rw [hs]; rfl)
    · trivial
    · trivial

/-! ### The switch -/

theorem count_allows (h : q.Allows b p) : q.count.Allows b p := by
  unfold Parser.count
  split <;> exact h

/-- The mark that is set. -/
def MarkClass.marked : MarkClass → Option DataKind
  | set k => some k
  | clear | behind _ => none

/-- Every case of the switch keeps the order. -/
theorem switch_ordered {m : MarkClass} (hm : m.Starts q) (h : q.Allows b p) (ch : UInt8) :
    (switch q.count ch 1).Ordered b m.marked p := by
  have hcount := count_state q
  have hq := count_allows h
  -- one case for each state; the mark that stands tells which part of a message it reads
  unfold switch
  cases hs : q.state <;> simp only [hcount, hs]
  all_goals rw [hs] at hcount
  case bodyIdentity => exact bodyIdentityCase_ordered hq hcount 1
  case bodyIdentityEof => exact hq
  case chunkData => exact chunkDataCase_ordered hq hcount 1
  case chunkDataAlmostDone => exact chunkDataAlmostDoneCase_ordered hq hcount
  case headerField =>
    obtain rfl := hm.set (k := .headerField) (by rw [hs]; rfl)
    exact headerFieldCase_ordered hq hcount
  case headerValue =>
    obtain rfl := hm.set (k := .headerValue) (by rw [hs]; rfl)
    exact headerValueCase_ordered hq hcount
  case resStatus =>
    obtain rfl := hm.set (k := .status) (by rw [hs]; rfl)
    exact resStatusCase_ordered hq hcount
  case reqSchema | reqSchemaSlash | reqSchemaSlashSlash | reqServerStart =>
    obtain rfl := hm.set (k := .url) (by rw [hs]; rfl)
    exact reqSchemaCase_ordered hq (by rw [hcount]; rfl)
  case reqServer | reqServerWithAt | reqPath | reqQueryStringStart | reqQueryString
    | reqFragmentStart | reqFragment =>
    obtain rfl := hm.set (k := .url) (by rw [hs]; rfl)
    exact reqServerCase_ordered hq (by rw [hcount]; rfl)
  -- in the states left no mark stands
  all_goals obtain rfl := hm.clear (by rw [hs]; rfl) (by rw [hs]; rfl)
  case dead => exact deadCase_ordered hq
  case startReqOrRes => exact startReqOrResCase_ordered hq hcount
  case resOrRespH => exact resOrRespHCase_ordered hq hcount
  case startRes => exact startResCase_ordered hq hcount
  case resFirstHttpMajor => exact resFirstHttpMajorCase_ordered hq hcount
  case resHttpMajor | reqHttpMajor =>
    refine httpMajorCase_ordered hq ?_
    simpa [Parser.Allows, hcount, State.part] using hq
  case resFirstHttpMinor | reqFirstHttpMinor =>
    refine firstHttpMinorCase_ordered ?_
    simpa [Parser.Allows, hcount, State.part] using hq
  case resHttpMinor => exact resHttpMinorCase_ordered hq hcount
  case resFirstStatusCode => exact resFirstStatusCodeCase_ordered hq hcount
  case resStatusCode => exact resStatusCodeCase_ordered hq hcount
  case resStatusStart => exact resStatusStartCase_ordered hq hcount
  case startReq => exact startReqCase_ordered hq hcount
  case reqMethod => exact reqMethodCase_ordered hq hcount
  case reqSpacesBeforeUrl => exact reqSpacesBeforeUrlCase_ordered hq hcount
  case reqHttpStart => exact reqHttpStartCase_ordered hq hcount
  case reqFirstHttpMajor => exact reqFirstHttpMajorCase_ordered hq hcount
  case reqHttpMinor => exact reqHttpMinorCase_ordered hq hcount
  case reqLineAlmostDone => exact reqLineAlmostDoneCase_ordered hq hcount
  case headerFieldStart => exact headerFieldStartCase_ordered hq (by rw [hcount]; rfl)
  case headerValueDiscardWs => exact headerValueDiscardWsCase_ordered hq hcount
  case headerValueDiscardLws => exact headerValueDiscardLwsCase_ordered hq hcount
  case headerValueStart => exact headerValueStartCase_ordered hq (by rw [hcount]; rfl)
  case headerValueLws => exact headerValueLwsCase_ordered hq hcount
  case chunkSizeStart => exact chunkSizeStartCase_ordered hq hcount
  case chunkSize => exact chunkSizeCase_ordered hq hcount
  case chunkParameters => exact chunkParametersCase_ordered hq hcount
  case chunkSizeAlmostDone => exact chunkSizeAlmostDoneCase_ordered hq hcount
  case chunkDataDone => exact chunkDataDoneCase_ordered hq hcount
  case headersAlmostDone => exact headersAlmostDoneCase_ordered hq (by rw [hcount]; rfl)
  case headersDone =>
    obtain ⟨hp, hr⟩ := of_allows_body hq (by rw [hcount]; rfl)
    exact headersDoneCase_ordered hp hr
  case messageDone =>
    obtain ⟨hp, hr⟩ := of_allows_body hq (by rw [hcount]; rfl)
    exact messageDoneCase_ordered hp hr
  case resLineAlmostDone =>
    refine expectCase_ordered ?_
    cases p <;> simp_all
  all_goals
    refine expectCase_ordered ?_
    simpa [Parser.Allows, hcount, State.part] using hq

end Cases

/-! ## Runs -/

/-- The callbacks are in order, and the record is in the phase behind them. -/
def Following (responses : Bool) (q : Parser) (made : List Callback) : Prop :=
  ∃ p, phaseOf responses made = some p ∧ q.Allows responses p

/-- The callbacks of a run are in order, and without an error the run may go on. -/
def Outcome.Ordered (responses : Bool) : Outcome → Prop
  | next x => Following responses x.parser x.made
  | returned x _ => InOrder responses x.made ∧
      (x.parser.errno = .ok → Following responses x.parser x.made)
  | fault _ => True

section Runs

variable {s : Settings} {m : MarkClass} {x : Exec} {q : Parser} {p p' : Phase} {b : Bool}
variable {rest : Exec → Outcome} {ch : UInt8} {bs : Bytes}

theorem inOrder_of_phaseOf {made : List Callback} (h : phaseOf b made = some p) : InOrder b made := by
  rw [InOrder, h]
  rfl

theorem Following.inOrder {made : List Callback} (h : Following b q made) : InOrder b made :=
  inOrder_of_phaseOf h.choose_spec.1

theorem phaseOf_call {c : Callback} (h : phaseOf b x.made = some p) (hc : p.next b c = some p') :
    phaseOf b (x.call q c).made = some p' :=
  (phaseOf_concat h c).trans hc

/-- A callback that may come keeps the order, also if it fails. -/
theorem notify_ordered {c : Callback} {e : Errno} {er : Nat} (h : phaseOf b x.made = some p)
    (hc : p.next b c = some p') (he : e ≠ .ok)
    (hrest : phaseOf b (x.call q c).made = some p' → (rest (x.call q c)).Ordered b) :
    (notify s c e er q rest x).Ordered b := by
  have hcall := phaseOf_call (q := q) h hc
  unfold notify
  split_ifs
  · trivial
  · exact ⟨inOrder_of_phaseOf hcall, fun hok => absurd hok he⟩
  · exact hrest hcall

/-- Handing over the text behind a mark, if one is set. -/
theorem handOver_ordered {k : DataKind} {more : Bytes} {er : Nat} (hm : m.Holds x)
    (hk : m.HandsOver k q) (h : phaseOf b x.made = some p)
    (hnone : m.marked = none → ∀ y, MarkClass.clear.Holds y → phaseOf b y.made = some p →
      (rest y).Ordered b)
    (hsome : m.marked ≠ none → ∃ p', p.nextText k = some p' ∧
      ∀ y, MarkClass.clear.Holds y → phaseOf b y.made = some p' → (rest y).Ordered b) :
    (handOver s k more er q rest x).Ordered b := by
  unfold handOver
  split_ifs
  · trivial
  -- without a mark nothing is handed over
  · cases m with
    | clear =>
      rw [show x.marks k = none by rw [show x.marks = _ from hm]]
      exact hnone rfl x hm h
    | set l =>
      -- the mark is the text's, and after the callback no mark stands
      obtain ⟨text, htext⟩ := hm
      obtain rfl : l = k := hk
      obtain ⟨p', hp', hrest⟩ := hsome (by simp [MarkClass.marked])
      rw [htext, onlyMark_self]
      have hcall : (x.call q (l.callback q (text ++ more))).marks = onlyMark l text := htext
      exact notify_ordered h ((next_callback b p l q (text ++ more)).trans hp')
        (by cases l <;> simp [DataKind.errno]) (hrest _ (holds_unmark hcall))
    | behind view => exact hm.elim

/-- A case that keeps the order is run in order, whatever the callbacks answer. -/
theorem run_ordered {plan : Plan} (ho : plan.Ordered b m.marked p) (hd : plan.Disciplined m)
    (hm : m.Holds x) (h : phaseOf b x.made = some p) : (plan.run s x).Ordered b := by
  -- by induction on the plan: what is left of it is ordered from the phase reached
  induction plan generalizing m x p with
  | next q => exact ⟨p, h, ho⟩
  | error e q => exact ⟨inOrder_of_phaseOf h, fun hok => absurd hok hd⟩
  | mark k rest ih => exact ih (m := .set k) ho hd.2 (holds_mark hm hd.1) h
  | skip n rest ih => exact ih ho hd.2 (holds_advance hm n) h
  | data k q rest ih | dataNoadvance k q rest ih =>
    obtain ⟨hk, -, hrest⟩ := hd
    unfold Plan.Ordered at ho
    refine handOver_ordered hm hk h (fun hnone y hy hmade => ?_) fun hsome => ?_
    · rw [if_pos hnone] at ho
      exact ih (m := .clear) ho hrest hy hmade
    · rw [if_neg hsome] at ho
      obtain ⟨p', hp', ho⟩ := ho
      exact ⟨p', hp', fun y hy hmade => ih (m := .clear) ho hrest hy hmade⟩
  | dataThrough k q rest ih =>
    obtain ⟨rfl, -, hrest⟩ := hd
    obtain ⟨p', hp', ho⟩ := ho
    exact handOver_ordered hm rfl h (fun hnone => by simp [MarkClass.marked] at hnone)
      fun _ => ⟨p', hp', fun y hy hmade => ih (m := .clear) ho hrest hy hmade⟩
  | messageBegin q rest ih | messageComplete q rest ih =>
    obtain ⟨rfl, -, hrest⟩ := hd
    obtain ⟨p', hp', ho⟩ := ho
    exact notify_ordered h hp' (by simp) fun hcall => ih ho hrest hm hcall
  | headersComplete q rest ih =>
    obtain ⟨rfl, -, hrest⟩ := hd
    obtain ⟨p', hp', ho⟩ := ho
    have hcall := phaseOf_call (q := q) h hp'
    unfold Plan.run askHeadersComplete
    dsimp only
    split_ifs
    -- the answer to `headers_complete` tells whether the body is skipped
    · exact ih false (ho false) (hrest false) hm hcall
    · exact ih true (ho true) (hrest true) hm hcall
    -- an answer that is neither 0 nor 1 ends the call with an error
    · exact ⟨inOrder_of_phaseOf hcall, fun hok => by simp [Exec.setErrno] at hok⟩
  | exit q => exact ⟨inOrder_of_phaseOf h, fun _ => ⟨p, h, ho⟩⟩
  | fault f => trivial

theorem readByte_ordered (hx : x.Ready) (h : Following b x.parser x.made) :
    (readByte s ch x).Ordered b := by
  obtain ⟨hok, m, hstarts, hm⟩ := hx
  obtain ⟨p, hp, hallows⟩ := h
  unfold readByte
  dsimp only
  split_ifs
  · exact ⟨inOrder_of_phaseOf hp, fun hok => by simp [Exec.setErrno] at hok⟩
  · exact run_ordered (m := m) (switch_ordered hstarts hallows ch)
      (switch_disciplined hok hstarts ch) hm hp

theorem readBytes_ordered (hx : x.Ready) (hrest : x.rest = bs) (h : Following b x.parser x.made) :
    (readBytes s bs x).Ordered b := by
  induction bs generalizing x with
  | nil => exact h
  | cons ch bs ih =>
    have hfine : (readByte s ch x).Fine x := readByte_fine hx
    have hordered : (readByte s ch x).Ordered b := readByte_ordered hx h
    rw [readBytes]
    cases hread : readByte s ch x with
    | next y =>
      rw [hread] at hfine hordered
      obtain ⟨hready, hy, -⟩ := ready_of_fine hfine hrest
      exact ih hready hy hordered
    | returned y n =>
      rw [hread] at hordered
      exact hordered
    | fault f => trivial

/-! ## Calls -/

/-- The callbacks of the calls so far are in order, and without an error more calls keep them so. -/
structure Executed.Ordered (responses : Bool) (r : Executed) : Prop where
  legal : r.parser.Legal
  inOrder : InOrder responses r.made
  following : r.parser.errno = .ok → Following responses r.parser r.made

/-- The text that a part of a message is. -/
def Part.text : Part → Option DataKind
  | url => some .url
  | status => some .status
  | names => some .headerField
  | values => some .headerValue
  | body | bodyEof => some .body
  | idle | idleBoth | idleResponse | start | startBoth => none

theorem text_of_starts {k : DataKind} (hk : (MarkClass.set k).Starts q) :
    q.state.part.text = some k := by
  unfold MarkClass.Starts at hk
  cases hs : q.state <;> simp [hs, State.resumes, State.inBody] at hk <;> subst hk <;> rfl

/-- A text may be handed over wherever it is read, and read on behind that. -/
theorem allows_nextText {part : Part} {k : DataKind} {trailing : Bool} (hk : part.text = some k)
    (h : part.allows b trailing p = true) :
    ∃ p', p.nextText k = some p' ∧ part.allows b trailing p' = true := by
  cases part <;> cases hk <;> cases p <;> first
    | exact ⟨_, rfl, h⟩
    | exact absurd h Bool.false_ne_true

theorem following_leftover {k : DataKind} (text : Bytes) (hk : (MarkClass.set k).Starts x.parser)
    (h : Following b x.parser x.made) :
    Following b x.parser (x.call x.parser (k.callback x.parser text)).made := by
  obtain ⟨p, hp, hallows, hr⟩ := h
  obtain ⟨p', hnext, hallows'⟩ := allows_nextText (text_of_starts hk) hallows
  exact ⟨p', phaseOf_call hp ((next_callback b p k x.parser text).trans hnext), hallows', hr⟩

theorem finish_ordered (len : Nat) (hx : x.Ready) (h : Following b x.parser x.made) :
    ∃ r, finish s len x = .ok r ∧ r.Ordered b := by
  have hone := marks_le_one hx
  obtain ⟨hok, m, hstarts, hm⟩ := hx
  have herr := hok.sound.1
  unfold finish
  rw [if_pos hone]
  -- what is marked at the end of the data is handed over
  cases m with
  | clear =>
    rw [run_leftover_clear hm herr]
    exact ⟨_, rfl, fun _ => hok, h.inOrder, fun _ => h⟩
  | set k =>
    obtain ⟨text, htext⟩ := hm
    rw [run_leftover_set htext herr]
    have hcall := following_leftover text hstarts h
    unfold notify
    rw [if_neg (not_not.mpr herr)]
    -- a callback that refuses leaves its error, after which nothing is parsed
    split_ifs
    · have hbad : k.errno ≠ .ok := by cases k <;> simp [DataKind.errno]
      exact ⟨_, rfl, fun he => absurd he hbad, hcall.inOrder, fun he => absurd he hbad⟩
    · exact ⟨_, rfl, fun _ => hok, hcall.inOrder, fun _ => hcall⟩
  | behind view => exact hm.elim

/-- The end of the stream completes the message, if the body goes up to there. -/
theorem executeEof_inOrder {made : List Callback} (h : Following b q made) :
    InOrder b (executeEof s q made).made := by
  obtain ⟨p, hp, hallows, -⟩ := h
  unfold executeEof
  split
  · rename_i hs
    have hcomplete : p.next b (.messageComplete q.view) = some .idle := by
      rw [hs] at hallows
      cases p <;> first
        | rfl
        | exact absurd hallows Bool.false_ne_true
    exact inOrder_of_phaseOf ((phaseOf_concat hp _).trans hcomplete)
  all_goals exact inOrder_of_phaseOf hp

/-- Of a request no body goes up to the end of the stream, so more calls may come. -/
theorem executeEof_ordered {made : List Callback} (hlegal : q.Legal) (he : q.errno = .ok)
    (hb : b = false) (h : Following b q made) : (executeEof s q made).Ordered b := by
  refine ⟨executeEof_legal hlegal he, executeEof_inOrder h, fun hok => ?_⟩
  obtain ⟨p, hp, hallows, hr⟩ := h
  unfold executeEof at hok ⊢
  split at hok
  · rename_i hs
    rw [hs, hb] at hallows
    cases p <;> exact absurd hallows Bool.false_ne_true
  all_goals exact ⟨p, hp, hallows, hr⟩

theorem execute_ordered {made : List Callback} {len : Nat} (data : Bytes)
    (h : Executed.Ordered b ⟨q, made, len⟩) :
    ∃ r, execute s q made data = .ok r ∧ InOrder b r.made ∧
      (b = false ∨ data ≠ [] → r.Ordered b) := by
  obtain ⟨hlegal, hinOrder, hfollowing⟩ := h
  -- a parser with an error makes no callback
  by_cases he : q.errno = .ok
  · unfold execute
    rw [if_neg (not_not.mpr he)]
    split_ifs with hdata
    · exact ⟨_, rfl, executeEof_inOrder (hfollowing he), fun hb =>
        executeEof_ordered hlegal he (hb.resolve_right (not_not.mpr hdata)) (hfollowing he)⟩
    -- without one it reads byte by byte and hands over what is left marked
    · have hready := ready_start (hlegal he) made data
      have hdone := readBytes_done (s := s) hready rfl
      have hordered := readBytes_ordered (s := s) hready rfl (hfollowing he)
      rw [loop_eq_readBytes hready rfl (le_refl data.length)]
      dsimp only at hdone hordered ⊢
      cases hread : readBytes s data ⟨q, startMarks q.state, 0, data, made⟩ with
      | next x =>
        rw [hread] at hdone hordered
        obtain ⟨r, hr, hr'⟩ := finish_ordered (s := s) data.length hdone.1 hordered
        exact ⟨r, hr, hr'.inOrder, fun _ => hr'⟩
      | returned x n =>
        rw [hread] at hdone hordered
        exact ⟨_, rfl, hordered.1, fun _ => ⟨fun he => (hdone.2 he).2.1, hordered.1, hordered.2⟩⟩
      | fault f =>
        rw [hread] at hdone
        exact hdone.elim
  · exact ⟨⟨q, made, 0⟩, by rw [execute, if_pos he], hinOrder,
      fun _ => ⟨hlegal, hinOrder, hfollowing⟩⟩

/-- Calls keep the order; if the parser is one of responses, none but the last may be empty. -/
theorem calls_following (s : Settings) {t : ParserType} {calls : List Bytes}
    (h : t = .request ∨ ∀ data ∈ calls, data ≠ []) :
    ∃ r, run (call s) (.start t) calls = .ok r ∧ r.Ordered (t ≠ .request) := by
  have hstart : (Executed.start t).Ordered (t ≠ .request) := by
    have hfollowing : Following (t ≠ .request) (Parser.init t) [] :=
      ⟨.idle, rfl, by cases t <;> exact ⟨rfl, by simp [Parser.init]⟩⟩
    exact ⟨fun _ => init_ok t, hfollowing.inOrder, fun _ => hfollowing⟩
  have hcalls : Along (call s) (fun _ data => decide (t ≠ .request) = false ∨ data ≠ [])
      (.start t) calls :=
    along_of_forall fun data hdata => h.imp (by simp) fun hne => hne data hdata
  refine run_ok (fun r data hr hdata => ?_) hstart hcalls
  obtain ⟨r', hr', -, hordered⟩ := execute_ordered (s := s) data hr
  exact ⟨r', hr', hordered hdata⟩

/-- **The callbacks come in order.** Whatever the calls are given, and whatever the callbacks
answer, the callbacks of all calls are those of messages one after the other, the last of them
perhaps not at its end. Only where responses may come the beginning may be said twice, and there the
end of the stream may be told in the last call only: told twice, it completes a message twice. -/
theorem calls_ordered (s : Settings) (t : ParserType) (calls : List Bytes) (data : Bytes)
    (h : t = .request ∨ ∀ data ∈ calls, data ≠ []) :
    ∃ r r', run (call s) (.start t) calls = .ok r ∧ call s r data = .ok r' ∧
      InOrder (t ≠ .request) r'.made := by
  obtain ⟨r, hrun, hr⟩ := calls_following s h
  obtain ⟨r', hr', hinOrder, -⟩ := execute_ordered (s := s) data hr
  exact ⟨r, r', hrun, hr', hinOrder⟩

/-- A response whose body is cut, and the end of the stream. -/
theorem calls_ordered_response :
    ∃ r r', run (call fun _ _ => 0) (.start .response)
        [ascii "HTTP/1.1 200 OK\r\n\r\nab", ascii "c"] = .ok r ∧
      call (fun _ _ => 0) r [] = .ok r' ∧ InOrder true r'.made :=
  calls_ordered (fun _ _ => 0) .response
    [ascii "HTTP/1.1 200 OK\r\n\r\nab", ascii "c"] [] (.inr (by decide))

end Runs

end Sails.HttpParser
