import Sails.Net.Http.Fragments
import Sails.Net.HttpParser.Answers
import Sails.Net.HttpParser.Requests
import Sails.Net.HttpParser.UrlAnswers

/-!
# Requests in the server's records

The parser with the callbacks of `http.cc`: what has been read of a connection is in the list of
complete messages.

- `exists_texts`, `exists_bodies`: the pieces that have joined to a text
- `exists_cutting`: the callbacks of a request, with its texts cut into pieces
- `FitsRecord.urlRead_iff`: what the call of `http_parser_parse_url` for a request must not find
- `recordSettings`: the callbacks of `http.cc` as settings of the parser
- `requests_received`: requests on a connection, and the records they are received in
-/

namespace Sails.HttpParser

open TransitionRun
open CMemory
open Coalesce
open Sails.Net (Callback ParseUrl ParserRun HttpMessage IsText Cutting Cuts Message callback
  callbackStep finalAnswer headerTable maxHeaders maxPathSize maxElementSize maxBodySize Holds
  UrlRead UrlsRead)

/-! ## Pieces that have joined -/

section Groups

variable {g : List Callback} {gs gs' : List (List Callback)} {l l' : List Callback}

/-- Groups in front and behind. -/
theorem forall₂_append {α β : Type*} {R : α → β → Prop} {xs : List α} {ys zs : List β}
    (h : List.Forall₂ R xs (ys ++ zs)) :
    ∃ us vs, xs = us ++ vs ∧ List.Forall₂ R us ys ∧ List.Forall₂ R vs zs :=
  ⟨xs.take ys.length, xs.drop ys.length, (List.take_append_drop ..).symm,
    List.forall₂_take_append xs ys zs h, List.forall₂_drop_append xs ys zs h⟩

/-- Two relations one behind the other. -/
theorem forall₂_trans {α β γ : Type*} {R : α → β → Prop} {S : β → γ → Prop} {T : α → γ → Prop}
    (h : ∀ a b c, R a b → S b c → T a c) {as : List α} {bs : List β} {cs : List γ}
    (hab : List.Forall₂ R as bs) (hbc : List.Forall₂ S bs cs) : List.Forall₂ T as cs := by
  induction hab generalizing cs with
  | nil => cases hbc; exact .nil
  | cons hr _ ih =>
    cases hbc with
    | cons hs hrest => exact .cons (h _ _ _ hr hs) (ih hrest)

/-- A callback without a text has joined with nothing. -/
theorem group_eq_singleton {e : Callback} (h : JoinsTo pieces g e) (he : pieceKind e = none) :
    g = [e] := by
  cases h with
  | one => rfl
  | @more a b g hjoin hg =>
    have hkind : pieceKind (joinPieces a b) = pieceKind a := pieces.kind_join a b hjoin.2
    have hsome : (pieceKind a).isSome := hjoin.1
    have hnone : pieceKind (joinPieces a b) = none := he
    rw [← hkind, hnone] at hsome
    cases hsome

/-- The pieces of a text. -/
theorem exists_texts {k : DataKind} {f : Bytes → Callback} {text : Bytes}
    (hf : ∀ c, pieceKind c = some k → ∃ t, c = f t) (hkind : ∀ t, pieceKind (f t) = some k)
    (hjoin : ∀ t u, joinPieces (f t) (f u) = f (t ++ u)) (hinj : Function.Injective f)
    (h : JoinsTo pieces g (f text)) : ∃ ts : List Bytes, ts ≠ [] ∧ g = ts.map f ∧ ts.flatten = text := by
  generalize he : f text = e at h
  induction h generalizing text with
  | one e => exact ⟨[text], List.cons_ne_nil _ _, by rw [← he]; rfl, List.append_nil text⟩
  | @more a b g hab hg ih =>
    have ha : pieceKind a = some k := by
      have hkept : pieceKind (joinPieces a b) = pieceKind a := pieces.kind_join a b hab.2
      have heq : f text = joinPieces a b := he
      rw [← hkept, ← heq, hkind]
    obtain ⟨t, rfl⟩ := hf a ha
    obtain ⟨u, rfl⟩ := hf b (hab.2.symm.trans ha)
    obtain ⟨ts, -, rfl, rfl⟩ := ih rfl
    have htext : f text = f (t ++ ts.flatten) := he.trans (hjoin t ts.flatten)
    exact ⟨t :: ts, List.cons_ne_nil _ _, rfl, (hinj htext).symm⟩

/-- The pieces of a body; the parser's answers at the last of them are those of the body. -/
theorem exists_bodies {p : Net.HttpParser} {text : Bytes} (h : JoinsTo pieces g (.body p text)) :
    ∃ bs : List (Net.HttpParser × Bytes), g = bs.map (fun b => .body b.1 b.2) ∧
      (bs.map Prod.snd).flatten = text ∧ bs.getLast?.map Prod.fst = some p := by
  -- by induction on how the pieces are joined; two neighbours are both bodies
  generalize he : Callback.body p text = e at h
  induction h generalizing text with
  | one e => exact ⟨[(p, text)], by rw [← he]; rfl, List.append_nil text, rfl⟩
  | @more a b g hab hg ih =>
    have ha : pieceKind a = some .body := by
      have hkept : pieceKind (joinPieces a b) = pieceKind a := pieces.kind_join a b hab.2
      have heq : Callback.body p text = joinPieces a b := he
      rw [← hkept, ← heq]
      rfl
    have hb : pieceKind b = some .body := hab.2.symm.trans ha
    cases a <;> cases ha
    cases b <;> cases hb
    rename_i p₁ t p₂ u
    have heq : Callback.body p text = .body p₂ (t ++ u) := he
    obtain ⟨rfl, rfl⟩ := Callback.body.inj heq
    obtain ⟨bs, rfl, rfl, hlast⟩ := ih rfl
    refine ⟨(p₁, t) :: bs, rfl, rfl, ?_⟩
    cases bs with
    | nil => cases hlast
    | cons b bs => exact hlast

/-- The pieces of headers. -/
theorem exists_headers (hs : List HeaderLine)
    (h : List.Forall₂ (JoinsTo pieces) gs (hs.flatMap HeaderLine.callbacks)) :
    ∃ cut : List (List Bytes × List Bytes),
      gs.flatten = cut.flatMap (fun h => h.1.map .headerField ++ h.2.map .headerValue) ∧
      (∀ h ∈ cut, h.1 ≠ [] ∧ h.2 ≠ []) ∧
      cut.map (fun h => (h.1.flatten, h.2.flatten)) = hs.map fun h => (h.name, h.value) := by
  -- by induction on the headers: a name cut into pieces, and a value
  induction hs generalizing gs with
  | nil =>
    obtain rfl := List.forall₂_nil_right_iff.mp h
    exact ⟨[], rfl, by simp, rfl⟩
  | cons header hs ih =>
    cases h with
    | @cons g₁ _ gs _ hname h =>
      cases h with
      | @cons g₂ _ gs _ hvalue h =>
        obtain ⟨names, hnames, rfl, hname'⟩ := exists_texts (k := .headerField)
          (fun c hc => by cases c <;> cases hc; exact ⟨_, rfl⟩) (fun _ => rfl) (fun _ _ => rfl)
          (fun _ _ heq => Callback.headerField.inj heq) hname
        obtain ⟨values, hvalues, rfl, hvalue'⟩ := exists_texts (k := .headerValue)
          (fun c hc => by cases c <;> cases hc; exact ⟨_, rfl⟩) (fun _ => rfl) (fun _ _ => rfl)
          (fun _ _ heq => Callback.headerValue.inj heq) hvalue
        obtain ⟨cut, hflat, hne, htexts⟩ := ih h
        refine ⟨(names, values) :: cut, ?_, ?_, ?_⟩
        · rw [List.flatten_cons, List.flatten_cons, hflat, List.flatMap_cons, List.append_assoc]
        · exact List.forall_mem_cons.mpr ⟨⟨hnames, hvalues⟩, hne⟩
        · rw [List.map_cons, List.map_cons, htexts, hname', hvalue']

/-- The parser says of a body whether it is complete. -/
def Answered (l : List Callback) : Prop :=
  ∀ p text, Callback.body p text ∈ l → p.bodyIsFinal = 0 ∨ p.bodyIsFinal = 1

/-- Behind pieces that are not the last the answer is that of the last. -/
theorem finalAnswer_last {answers : List Int} (h : ∀ a ∈ answers, a = 0 ∨ a = 1)
    (hlast : answers.getLast? = some 1) : finalAnswer answers = 1 := by
  induction answers with
  | nil => cases hlast
  | cons a answers ih =>
    obtain rfl | rfl := h a (List.mem_cons_self ..)
    · have hlast' : answers.getLast? = some 1 := by
        cases answers with
        | nil => cases hlast
        | cons b answers => rw [← hlast, List.getLast?_cons_cons]
      rw [finalAnswer, if_neg (not_not.mpr rfl)]
      exact ih (fun x hx => h x (List.mem_cons_of_mem _ hx)) hlast'
    · rw [finalAnswer, if_pos (by decide)]

/-- The answer that a record keeps about the body of a request. -/
theorem exists_bodyPieces (r : PlainRequest)
    (h : List.Forall₂ (JoinsTo pieces) gs (r.bodyCallbacks 0)) (hanswered : Answered gs.flatten) :
    ∃ bs : List (Net.HttpParser × Bytes), gs.flatten = bs.map (fun b => .body b.1 b.2) ∧
      (bs.map Prod.snd).flatten = r.body ∧
      finalAnswer (bs.map fun b => b.1.bodyIsFinal) = if r.body = [] then 0 else 1 := by
  unfold PlainRequest.bodyCallbacks at h
  split at h
  · rename_i hnil
    obtain rfl := List.forall₂_nil_right_iff.mp h
    exact ⟨[], rfl, hnil.symm, by rw [if_pos hnil]; rfl⟩
  · rename_i hne
    cases h with
    | @cons g _ gs _ hg h =>
      obtain rfl := List.forall₂_nil_right_iff.mp h
      obtain ⟨bs, rfl, htext, hlast⟩ := exists_bodies hg
      have hflat : [bs.map fun b => Callback.body b.1 b.2].flatten =
          bs.map fun b => Callback.body b.1 b.2 := by simp
      refine ⟨bs, hflat, htext, ?_⟩
      rw [if_neg hne]
      -- only the last piece may be answered by the end of the message
      refine finalAnswer_last (fun a ha => ?_) ?_
      · obtain ⟨b, hb, rfl⟩ := List.mem_map.mp ha
        refine hanswered b.1 b.2 ?_
        rw [hflat]
        exact List.mem_map_of_mem (f := fun b => Callback.body b.1 b.2) hb
      · rw [List.getLast?_map]
        obtain ⟨b, hb, hview⟩ := Option.map_eq_some_iff.mp hlast
        rw [hb, Option.map_some, hview]
        rfl

end Groups

/-! ## A request and its cutting -/

/-- What `parser_url` puts behind the scheme of a request's url: the first `Host` and the url. -/
def PlainRequest.location (r : PlainRequest) : Bytes :=
  Net.firstValue (ascii "Host") (r.headers.map fun h => (h.name, h.value)) ++ r.line.url

/-- The texts of a request fit the arrays of a record, and the url fits behind the host. -/
structure FitsRecord (r : PlainRequest) : Prop where
  url_lt : r.line.url.length < 1000
  headers_le : r.headers.length ≤ maxHeaders
  header : ∀ h ∈ r.headers, h.name.length < maxElementSize ∧ IsText maxElementSize h.value
  host_lt : ∀ h ∈ r.headers, h.name = ascii "Host" → r.line.url.length + h.value.length < 1000
  body : IsText maxBodySize r.body

instance (r : PlainRequest) : Decidable (FitsRecord r) :=
  decidable_of_iff (r.line.url.length < 1000 ∧ r.headers.length ≤ maxHeaders ∧
      (∀ h ∈ r.headers, h.name.length < maxElementSize ∧ IsText maxElementSize h.value) ∧
      (∀ h ∈ r.headers, h.name = ascii "Host" → r.line.url.length + h.value.length < 1000) ∧
      IsText maxBodySize r.body)
    ⟨fun ⟨h₁, h₂, h₃, h₄, h₅⟩ => ⟨h₁, h₂, h₃, h₄, h₅⟩,
      fun ⟨h₁, h₂, h₃, h₄, h₅⟩ => ⟨h₁, h₂, h₃, h₄, h₅⟩⟩

theorem parseUrlChar_zero (s : State) : parseUrlChar s 0 = .dead := by cases s <;> decide

theorem foldl_parseUrlChar_of_mem_zero {url : Bytes} (h : (0 : UInt8) ∈ url) (s : State) :
    url.foldl parseUrlChar s = .dead := by
  induction url generalizing s with
  | nil => cases h
  | cons c url ih =>
    rw [List.foldl_cons]
    obtain rfl | h := List.mem_cons.mp h
    · rw [parseUrlChar_zero, foldl_parseUrlChar_dead]
    · exact ih h _

/-- No NUL is accepted in a url. -/
theorem ne_zero_of_urlAccepted {m : HttpMethod} {url : Bytes} (h : UrlAccepted m url) :
    ∀ c ∈ url, c ≠ 0 := by
  rintro c hc rfl
  have hends : (urlEnd m url).endsUrl = true := h
  rw [urlEnd, foldl_parseUrlChar_of_mem_zero hc] at hends
  cases hends

theorem ne_zero_of_fieldName {name : Bytes} (h : FieldName name) : ∀ c ∈ name, c ≠ 0 := by
  rintro c hc rfl
  exact h.2.2 0 hc (by decide)

namespace FitsRecord

variable {r : PlainRequest}

/-- The request as a message that its record has room for. -/
def message (h : FitsRecord r) : Message where
  url := ⟨r.line.url, h.url_lt.trans (by decide), ne_zero_of_urlAccepted r.line.accepted⟩
  headers := r.headers.attach.map fun x =>
    (⟨x.1.name, (h.header x.1 x.2).1, ne_zero_of_fieldName x.1.name_ok⟩,
      ⟨x.1.value, (h.header x.1 x.2).2⟩)
  body := ⟨r.body, h.body⟩
  answers := r.tells 0 (r.body ≠ [])
  headers_le := by simpa using h.headers_le
  url_lt := h.url_lt
  host_lt := by
    intro x hx hname
    obtain ⟨y, -, rfl⟩ := List.mem_map.mp hx
    exact h.host_lt y.1 y.2 hname

theorem headerTexts_message (h : FitsRecord r) :
    h.message.headerTexts = r.headers.map fun h => (h.name, h.value) := by
  simp [Message.headerTexts, message, List.map_map, Function.comp_def]

/-- `parser_url` puts the value of `Host` and the url behind the scheme. -/
theorem location_message (h : FitsRecord r) : h.message.received.location = r.location := by
  have hurl : h.message.received.requestUrl.str = r.line.url := h.message.url.str_ofBytes
  rw [HttpMessage.location, Message.hostValue_received, headerTexts_message, hurl]
  rfl

/-- The call for a request returns unless its url has no host and its record held one outside the
array `url`. -/
theorem urlRead_iff (h : FitsRecord r) (fieldData : UrlField → FieldData) :
    UrlRead (urlParser fieldData) h.message ↔ (Hostless r.location → HostInside fieldData) := by
  rw [Net.urlRead_urlParser_iff, h.location_message]

/-- **The callbacks of a request**, with the texts in pieces, are those of a cutting of its
message. -/
theorem exists_cutting (h : FitsRecord r) {gs : List (List Callback)}
    (hgs : List.Forall₂ (JoinsTo pieces) gs (r.callbacks 0)) (hanswered : Answered gs.flatten) :
    ∃ c : Cutting, gs.flatten = c.callbacks ∧ Cuts h.message c := by
  unfold PlainRequest.callbacks at hgs
  obtain ⟨gs, done, rfl, hgs, hdone⟩ := forall₂_append hgs
  obtain ⟨gs, bodies, rfl, hgs, hbodies⟩ := forall₂_append hgs
  obtain ⟨gs, complete, rfl, hgs, hcomplete⟩ := forall₂_append hgs
  obtain ⟨first, headers, rfl, hfirst, hheaders⟩ := forall₂_append hgs
  -- the callbacks without a text
  have hlone : ∀ {gs : List (List Callback)} {e : Callback},
      List.Forall₂ (JoinsTo pieces) gs [e] → pieceKind e = none → gs.flatten = [e] := by
    intro gs e hgs he
    cases hgs with
    | @cons g _ gs _ hg hgs =>
      obtain rfl := List.forall₂_nil_right_iff.mp hgs
      rw [group_eq_singleton hg he]
      rfl
  have hdone' := hlone hdone rfl
  have hcomplete' := hlone hcomplete rfl
  cases hfirst with
  | @cons g₁ _ gs _ hbegin hfirst =>
  cases hfirst with
  | @cons g₂ _ gs _ hurl hfirst =>
  obtain rfl := List.forall₂_nil_right_iff.mp hfirst
  obtain rfl := group_eq_singleton hbegin rfl
  obtain ⟨urls, -, rfl, hurl'⟩ := exists_texts (k := .url)
    (fun c hc => by cases c <;> cases hc; exact ⟨_, rfl⟩) (fun _ => rfl) (fun _ _ => rfl)
    (fun _ _ heq => Callback.requestUrl.inj heq) hurl
  obtain ⟨cut, hflat, hne, htexts⟩ := exists_headers r.headers hheaders
  have hanswered' : Answered bodies.flatten := fun p text hmem => by
    refine hanswered p text ?_
    simp only [List.flatten_append, List.mem_append]
    exact .inl (.inr hmem)
  obtain ⟨bs, hbs, hbody, hfinal⟩ := exists_bodyPieces r hbodies hanswered'
  refine ⟨⟨urls, cut, r.tells 0 false, bs, r.tells 0 false⟩, ?_, ?_⟩
  · simp only [List.flatten_append, hdone', hcomplete', hflat, hbs, Cutting.callbacks]
    simp
  · refine ⟨hurl', hne, htexts.trans h.headerTexts_message.symm, hbody, ?_, rfl, ?_⟩
    · rw [hfinal]
      by_cases hnil : r.body = [] <;> simp [message, PlainRequest.tells, hnil]
    · exact fun hbad => absurd rfl hbad

end FitsRecord

/-! ## The callbacks of `http.cc` -/

/-- What the callbacks of `http.cc` return, for a connection with a new `ParserFlag`. -/
def recordSettings (parseUrls : Nat → ParseUrl) : Settings := fun made c =>
  match run (callbackStep parseUrls) .init made with
  | .error _ => 0
  | .ok s =>
    match callback (parseUrls s.parserFlag.messageList.length) s.parserFlag c with
    | .error _ => 0
    | .ok (_, result) => result

section RecordSettings

variable {parseUrls : Nat → ParseUrl}

theorem stopped_of_run {s t : ParserRun} {cs : List Callback} (hs : s.stopped = true)
    (h : run (callbackStep parseUrls) s cs = .ok t) : t.stopped = true := by
  refine run_invariant' (I := fun s => s.stopped = true) (fun s c t hs hstep => ?_) hs h
  rw [callbackStep, if_pos hs] at hstep
  exact Except.ok.inj hstep ▸ hs

/-- If the run of the callbacks has not been stopped, all of them have returned 0. -/
theorem recordSettings_accepts {made : List Callback} {s : ParserRun}
    (h : run (callbackStep parseUrls) .init made = .ok s) (hs : s.stopped = false) :
    (recordSettings parseUrls).Accepts made := by
  rintro before c ⟨behind, rfl⟩
  rw [List.append_assoc, List.singleton_append] at h
  unfold recordSettings
  cases hbefore : run (callbackStep parseUrls) .init before with
  | error f => rfl
  | ok t =>
    rw [run_append hbefore] at h
    obtain ⟨u, hstep, hrest⟩ := run_cons_eq_ok h
    -- a parser that stops before a callback stays stopped
    have ht : t.stopped = false := by
      by_contra hbad
      rw [callbackStep, if_pos (Bool.eq_true_of_not_eq_false hbad)] at hstep
      obtain rfl := Except.ok.inj hstep
      have hstop := stopped_of_run (Bool.eq_true_of_not_eq_false hbad) hrest
      rw [hs] at hstop
      cases hstop
    have hu : u.stopped = false := by
      by_contra hbad
      have hstop := stopped_of_run (Bool.eq_true_of_not_eq_false hbad) hrest
      rw [hs] at hstop
      cases hstop
    rw [callbackStep, if_neg (by simp [ht])] at hstep
    obtain ⟨⟨f, result⟩, hcallback, hflag⟩ := ok_of_bind hstep
    obtain rfl := Except.ok.inj hflag
    dsimp only
    rw [hcallback]
    simpa using hu

/-- The parser says of every body whether it is complete. -/
theorem answered_of_feed {s : Settings} {t : ParserType} {segments : List Bytes} {c : Session}
    (h : Session.feed s (.start t) segments = .ok c) : Answered c.made := by
  obtain ⟨more, hmore, hfrom⟩ := feed_adds h
  intro p text hmem
  have hcallback := hfrom _ (by rwa [hmore] at hmem)
  generalize he : Callback.body p text = e at hcallback
  cases hcallback with
  | piece k q u =>
    cases k <;> cases he
    have hview : q.view.bodyIsFinal = if bodyIsFinal q then 1 else 0 := rfl
    rw [hview]
    split
    · exact .inr rfl
    · exact .inl rfl
  | messageBegin | headersComplete | messageComplete => cases he

/-- The record holds the request. -/
structure ReceivedIn (r : PlainRequest) (m : HttpMessage) : Prop where
  method : m.method = r.line.method.num
  version : m.httpMajor = digitsFrom 0 r.line.version.major ∧
    m.httpMinor = digitsFrom 0 r.line.version.minor
  url : m.requestUrl = .ofBytes _ r.line.url
  numHeaders : m.numHeaders = r.headers.length
  headers : m.headers = headerTable (r.headers.map fun h => (h.name, h.value))
  body : m.bodySize = r.body.length ∧ m.body = .ofBytes _ r.body

theorem FitsRecord.receivedIn {r : PlainRequest} (h : FitsRecord r) {m : HttpMessage}
    (hm : Holds h.message m) : ReceivedIn r m where
  method := hm.method
  version := hm.version
  url := hm.arrays.1
  numHeaders := by
    rw [hm.numHeaders]
    simp [message]
  headers := by rw [hm.arrays.2.2, h.headerTexts_message]
  body := ⟨hm.body.1, hm.arrays.2.1⟩

/-- The callbacks of requests, with the texts in pieces, are those of cuttings of their messages. -/
theorem exists_cuttings (rs : List PlainRequest) (hfits : ∀ r ∈ rs, FitsRecord r)
    {gs : List (List Callback)} (hgs : List.Forall₂ (JoinsTo pieces) gs (requestCallbacks rs))
    (hanswered : Answered gs.flatten) :
    ∃ msgs cs, gs.flatten = cs.flatMap Cutting.callbacks ∧ List.Forall₂ Cuts msgs cs ∧
      List.Forall₂ (fun r msg => ∃ h : FitsRecord r, h.message = msg) rs msgs := by
  induction rs generalizing gs with
  | nil =>
    obtain rfl := List.forall₂_nil_right_iff.mp hgs
    exact ⟨[], [], rfl, .nil, .nil⟩
  | cons r rs ih =>
    rw [requestCallbacks, List.flatMap_cons] at hgs
    obtain ⟨gs, gs', rfl, hgs, hgs'⟩ := forall₂_append hgs
    rw [List.flatten_append] at hanswered ⊢
    have hr := hfits r (List.mem_cons_self ..)
    obtain ⟨c, hc, hcuts⟩ := hr.exists_cutting hgs fun p text hmem =>
      hanswered p text (List.mem_append_left _ hmem)
    obtain ⟨msgs, cs, hcs, hcutss, hmsgs⟩ := ih (fun x hx => hfits x (List.mem_cons_of_mem _ hx)) hgs'
      fun p text hmem => hanswered p text (List.mem_append_right _ hmem)
    exact ⟨hr.message :: msgs, c :: cs, by rw [hc, hcs, List.flatMap_cons], .cons hcuts hcutss,
      .cons ⟨hr, rfl⟩ hmsgs⟩

/-- The calls of `http_parser_parse_url`, each with what its record held. -/
def urlParsers (fieldData : Nat → UrlField → FieldData) : Nat → ParseUrl :=
  fun k => urlParser (fieldData k)

/-- Where the url of a request has no host, the record of its call held none outside the array
`url`. -/
def HostsInside (fieldData : Nat → UrlField → FieldData) (rs : List PlainRequest) : Prop :=
  ∀ k r, rs[k]? = some r → Hostless r.location → HostInside (fieldData k)

theorem urlsRead_of_hostsInside {fieldData : Nat → UrlField → FieldData} {rs : List PlainRequest}
    {msgs : List Message} (hinside : HostsInside fieldData rs)
    (hmsgs : List.Forall₂ (fun r msg => ∃ h : FitsRecord r, h.message = msg) rs msgs) :
    UrlsRead (urlParsers fieldData) 0 msgs := by
  intro i msg hi
  obtain ⟨hlen, hfit⟩ := List.forall₂_iff_get.mp hmsgs
  obtain ⟨hlt, rfl⟩ := List.getElem?_eq_some_iff.mp hi
  obtain ⟨hr, hmessage⟩ := hfit i (hlen ▸ hlt) hlt
  have hget : hr.message = msgs[i] := hmessage
  rw [← hget, Nat.zero_add]
  exact (hr.urlRead_iff _).mpr (hinside i _ (List.getElem?_eq_getElem _))

/-- Callbacks of requests that have been read leave a record for each request. -/
theorem received_of_reads {fieldData : Nat → UrlField → FieldData} {rs : List PlainRequest}
    (hinside : HostsInside fieldData rs) (hfits : ∀ r ∈ rs, FitsRecord r) {bs : Bytes} {q : Parser}
    (hreads : Reads ⟨.init .request, none, []⟩ bs ⟨q, none, requestCallbacks rs⟩)
    {segments : List Bytes} (h : segments.flatten = bs) :
    ∃ c s, Session.feed (recordSettings (urlParsers fieldData)) (.start .request) segments = .ok c ∧
      c.parser.errno = .ok ∧ c.consumed = segments.flatten.length ∧
      run (callbackStep (urlParsers fieldData)) .init c.made = .ok s ∧
      List.Forall₂ ReceivedIn rs s.parserFlag.messageList := by
  obtain ⟨c, hfeed, hparser, he, hconsumed, hmade⟩ := feed_reads hreads h
  have hwhole : whole c.made = requestCallbacks rs :=
    hmade.trans (coalesce_of_isChain (apart_requestCallbacks rs))
  -- the callbacks are those of the messages, each text in pieces
  obtain ⟨gs, hflat, hgs⟩ := exists_groups pieces c.made
  rw [show coalesce pieces c.made = _ from hwhole] at hgs
  obtain ⟨msgs, cs, hcallbacks, hcuts, hmsgs⟩ := exists_cuttings rs hfits hgs
    (hflat.symm ▸ answered_of_feed hfeed)
  have hread := urlsRead_of_hostsInside hinside hmsgs
  obtain ⟨flag, hrun⟩ := Net.messages_run hcuts 0 [] hread
  have hinit : Net.collecting .empty .init 0 [] = ParserRun.init := by
    rw [Net.collecting, Net.fill_empty]
    rfl
  rw [hinit, ← hcallbacks, hflat, List.nil_append] at hrun
  refine ⟨c, _, feed_of_accepts hfeed (recordSettings_accepts hrun rfl), hparser ▸ he,
    h.symm ▸ hconsumed, hrun, ?_⟩
  -- each record holds its message, and each message is a request
  refine forall₂_trans (fun r msg m hmsg hm => ?_) hmsgs (Net.holds_completed hread)
  obtain ⟨hr, rfl⟩ := hmsg
  exact hr.receivedIn hm

/-- **Requests are received in records.** However the bytes of requests are cut into segments, the
server makes of them one complete record for each request, in their order and with the method,
version, url, headers and body that were sent. -/
theorem requests_received {fieldData : Nat → UrlField → FieldData} (rs : List PlainRequest)
    (hinside : HostsInside fieldData rs) (hfits : ∀ r ∈ rs, FitsRecord r) (hopen : StaysOpen rs)
    (hhead : ∀ r ∈ rs, r.head.length ≤ httpMaxHeaderSize) {segments : List Bytes}
    (h : segments.flatten = rs.flatMap PlainRequest.text) :
    ∃ c s, Session.feed (recordSettings (urlParsers fieldData)) (.start .request) segments = .ok c ∧
      c.parser.errno = .ok ∧ c.consumed = segments.flatten.length ∧
      run (callbackStep (urlParsers fieldData)) .init c.made = .ok s ∧
      List.Forall₂ ReceivedIn rs s.parserFlag.messageList := by
  obtain ⟨q, hreads⟩ := reads_requests (q := .init .request) (w := []) rs ⟨rfl, rfl⟩ rfl rfl hopen
    hhead
  exact received_of_reads hinside hfits hreads h

/-- Records that hold zeros. -/
def zeroRecords : Nat → UrlField → FieldData := fun _ _ => ⟨0, 0⟩

theorem hostInside_zeroRecords (k : Nat) : HostInside (zeroRecords k) := .inl rfl

/-- The two requests in three segments. -/
theorem requests_received_post :
    ∃ c s, Session.feed (recordSettings (urlParsers zeroRecords)) (.start .request)
        [ascii "POST /a HTTP/1.1\r\nConte", ascii "nt-Length: 3\r\n\r\nabcPO",
          ascii "ST /a HTTP/1.1\r\nContent-Length: 3\r\n\r\nabc"] = .ok c ∧
      c.parser.errno = .ok ∧
      c.consumed = [ascii "POST /a HTTP/1.1\r\nConte", ascii "nt-Length: 3\r\n\r\nabcPO",
          ascii "ST /a HTTP/1.1\r\nContent-Length: 3\r\n\r\nabc"].flatten.length ∧
      run (callbackStep (urlParsers zeroRecords)) .init c.made = .ok s ∧
      List.Forall₂ ReceivedIn [postRequest, postRequest] s.parserFlag.messageList :=
  requests_received [postRequest, postRequest] (fun k _ _ _ => hostInside_zeroRecords k)
    (by simp; decide)
    (by simp [StaysOpen]; decide) (by simp; decide) (by decide)

end RecordSettings

end Sails.HttpParser
