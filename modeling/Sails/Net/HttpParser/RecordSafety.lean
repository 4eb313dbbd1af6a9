import Sails.Net.Http.Safety
import Sails.Net.HttpParser.Order
import Sails.Net.HttpParser.Records

/-!
# The records behind the parser

The order in which the parser makes its callbacks is the order in which the records can take them: a
value never comes without a name. What is left is whether the texts fit, and what a url without a host
makes `http_parser_parse_url` read.

- `Behind`: the record behind the callbacks of a phase
- `callbackStep_behind`: one more callback
- `connection_safe`: any calls of the parser with the callbacks of `http.cc`
-/

namespace Sails.HttpParser

open TransitionRun
open CMemory
open Sails.Net (Callback ParseUrl ParserRun HttpMessage callbackStep ReportsInside RecordsSafe
  Fits UrlAnswered ValueAfterField)

section Connection

variable {parseUrls : Nat → ParseUrl} {b : Bool} {p p' : Phase} {s t : ParserRun} {c : Callback}

/-- The records are safe, and where values may come there is a header to take them. -/
structure Behind (p : Phase) (s : ParserRun) : Prop where
  safe : RecordsSafe s
  begun : s.stopped = false → p = .headers ∨ p = .trailers →
    s.parserFlag.message.lastHeaderElement ≠ .none

/-- Only a name or a value leads to headers. -/
theorem headers_of_next (h : p.next b c = some p') (hp : p' = .headers ∨ p' = .trailers) :
    (∃ piece, c = .headerField piece) ∨ ∃ piece, c = .headerValue piece := by
  have htext : ∀ k, p.nextText k = some p' → k = .headerField ∨ k = .headerValue := by
    intro k hk
    cases k <;> cases p <;> cases hk <;> simp at hp ⊢
  cases c with
  | headerField piece => exact .inl ⟨piece, rfl⟩
  | headerValue piece => exact .inr ⟨piece, rfl⟩
  | requestUrl piece => exact absurd (htext .url h) (by simp)
  | responseStatus piece => exact absurd (htext .status h) (by simp)
  | body view piece => exact absurd (htext .body h) (by simp)
  | messageBegin | headersComplete view | messageComplete view =>
    simp only [Phase.next] at h
    split_ifs at h
    cases h
    simp at hp

/-- A value comes where there is a header. -/
theorem Behind.valueAfterField (hs : Behind p s) (hrun : s.stopped = false)
    (h : p.next b c = some p') : ValueAfterField s c := by
  cases c
  case headerValue piece =>
    refine hs.begun hrun ?_
    have htext : p.nextText .headerValue = some p' := h
    cases p <;> simp [Phase.nextText] at htext ⊢
  all_goals trivial

/-- Behind a name or a value there is a header. -/
theorem lastHeaderElement_of_header {m : HttpMessage} {piece : Bytes} :
    (∀ m', Net.headerFieldCb m piece = .ok m' → m'.lastHeaderElement ≠ .none) ∧
      ∀ m', Net.headerValueCb m piece = .ok m' → m'.lastHeaderElement ≠ .none := by
  constructor <;> intro m' h
  all_goals
    obtain ⟨i, -, h⟩ := ok_of_bind h
    obtain ⟨array, -, h⟩ := ok_of_bind h
    cases h
    simp

/-- **One more callback** in its place, if its text fits and its url is answered. -/
theorem callbackStep_behind (hinside : ∀ k, ReportsInside (parseUrls k)) (hs : Behind p s)
    (h : p.next b c = some p') (hfits : Fits s c) (hanswered : UrlAnswered parseUrls s c) :
    ∃ t, callbackStep parseUrls s c = .ok t ∧ Behind p' t := by
  cases hrun : s.stopped with
  | true =>
    exact ⟨s, by simp [callbackStep, hrun], hs.safe, fun hbad _ => by simp [hrun] at hbad⟩
  | false =>
    obtain ⟨t, hstep, ht⟩ :=
      Net.callbackStep_spec hinside hs.safe (hs.valueAfterField hrun h) hfits hanswered
    refine ⟨t, hstep, ht, fun _ hp => ?_⟩
    rw [callbackStep, if_neg (by simp [hrun])] at hstep
    obtain ⟨⟨flag, result⟩, hcallback, hflag⟩ := ok_of_bind hstep
    obtain rfl := Except.ok.inj hflag
    obtain ⟨piece, rfl⟩ | ⟨piece, rfl⟩ := headers_of_next h hp
    · obtain ⟨m', hm', hcall⟩ := ok_of_bind hcallback
      cases hcall
      exact lastHeaderElement_of_header.1 m' hm'
    · obtain ⟨m', hm', hcall⟩ := ok_of_bind hcallback
      cases hcall
      exact lastHeaderElement_of_header.2 m' hm'

/-- Callbacks in order raise no fault exactly when all their texts fit and their urls are answered. -/
theorem callbacks_behind (hinside : ∀ k, ReportsInside (parseUrls k)) {cs : List Callback}
    (hs : Behind p s) (h : cs.foldlM (Phase.next b) p = some p') :
    ((∃ t, run (callbackStep parseUrls) s cs = .ok t) ↔
        Along (callbackStep parseUrls) (fun s c => Fits s c ∧ UrlAnswered parseUrls s c) s cs) ∧
      ∀ t, run (callbackStep parseUrls) s cs = .ok t → Behind p' t := by
  induction cs generalizing p s with
  | nil =>
    obtain rfl := Option.some.inj h
    exact ⟨⟨fun _ => trivial, fun _ => ⟨s, rfl⟩⟩, fun t ht => Except.ok.inj ht ▸ hs⟩
  | cons c cs ih =>
    rw [List.foldlM_cons] at h
    obtain ⟨p₁, hnext, hrest⟩ := Option.bind_eq_some_iff.mp h
    by_cases hgood : Fits s c ∧ UrlAnswered parseUrls s c
    · obtain ⟨u, hstep, hu⟩ := callbackStep_behind hinside hs hnext hgood.1 hgood.2
      obtain ⟨hiff, hbehind⟩ := ih hu hrest
      rw [run_cons_ok hstep]
      exact ⟨hiff.trans ⟨.cons_ok hgood hstep, fun hall => hall.tail hstep⟩, hbehind⟩
    -- the first that does not fit or is not answered faults
    · obtain ⟨e, hstep⟩ : ∃ e, callbackStep parseUrls s c = .error e := by
        by_cases hfits : Fits s c
        · exact Net.callbackStep_of_not_answered hs.safe hfits fun hbad => hgood ⟨hfits, hbad⟩
        · exact Net.callbackStep_of_not_fits parseUrls hs.safe hfits
      have hfails : ∀ t, run (callbackStep parseUrls) s (c :: cs) ≠ .ok t := fun t ht => by
        obtain ⟨u, hok, -⟩ := run_cons_eq_ok ht
        rw [hstep] at hok
        cases hok
      exact ⟨⟨fun ⟨t, ht⟩ => absurd ht (hfails t), fun hall => absurd hall.head hgood⟩,
        fun t ht => absurd ht (hfails t)⟩

end Connection

/-- The record of `http_parser_parse_url` at the end of a message, if its url has no host, held none
outside the array `url`. -/
def HostReadInside (fieldData : Nat → UrlField → FieldData) (s : ParserRun) : Callback → Prop
  | .messageComplete p =>
    s.stopped = false → Net.MessageConsistent s.parserFlag.message p →
      Hostless s.parserFlag.message.location →
        HostInside (fieldData s.parserFlag.messageList.length)
  | _ => True

/-- A callback that fits is answered exactly when it reads inside the array. -/
theorem answered_urlParsers_iff {fieldData : Nat → UrlField → FieldData} {s : ParserRun}
    {c : Callback} (hfits : Fits s c) :
    UrlAnswered (urlParsers fieldData) s c ↔ HostReadInside fieldData s c := by
  cases c with
  | messageComplete p =>
    refine forall_congr' fun hstopped => forall_congr' fun hconsistent => ?_
    have hurl := (hfits hstopped hconsistent).length_lt
    rw [HttpMessage.urlText_eq]
    exact answers_urlParser_iff hurl
  | messageBegin | headersComplete p | requestUrl piece | responseStatus piece | headerField piece
  | headerValue piece | body p piece => exact ⟨fun _ => trivial, fun _ _ => trivial⟩

/-- **A connection's records.** Whatever a connection's calls are given, the parser runs into no
assertion, and with the callbacks of `http.cc` nothing goes wrong but a text that does not fit its
array, or a url without a host for which memory outside its array is read: the callbacks raise no
fault exactly when neither happens, and then all records are well formed. -/
theorem connection_safe (fieldData : Nat → UrlField → FieldData) (calls : List Bytes) :
    ∃ r, run (call (recordSettings (urlParsers fieldData))) (.start .request) calls = .ok r ∧
      ((∃ s, run (callbackStep (urlParsers fieldData)) .init r.made = .ok s) ↔
        Along (callbackStep (urlParsers fieldData))
          (fun s c => Fits s c ∧ HostReadInside fieldData s c) .init r.made) ∧
      ∀ s, run (callbackStep (urlParsers fieldData)) .init r.made = .ok s → RecordsSafe s := by
  obtain ⟨r, hrun, hr⟩ : ∃ r, run (call (recordSettings (urlParsers fieldData))) (.start .request)
      calls = .ok r ∧ r.Ordered false :=
    calls_following (recordSettings (urlParsers fieldData)) (.inl rfl)
  obtain ⟨p, hp⟩ := Option.isSome_iff_exists.mp hr.inOrder
  have hinside : ∀ k, ReportsInside (urlParsers fieldData k) := fun k => reportsInside_urlParser
  obtain ⟨hiff, hbehind⟩ := callbacks_behind (p := .idle) (s := .init) hinside
    ⟨Net.recordsSafe_init, fun _ hbad => by simp at hbad⟩ hp
  refine ⟨r, hrun, hiff.trans ?_, fun s hs => (hbehind s hs).safe⟩
  have hsame : (fun s c => Fits s c ∧ UrlAnswered (urlParsers fieldData) s c) =
      fun s c => Fits s c ∧ HostReadInside fieldData s c := by
    funext s c
    exact propext (and_congr_right answered_urlParsers_iff)
  rw [hsame]

end Sails.HttpParser
