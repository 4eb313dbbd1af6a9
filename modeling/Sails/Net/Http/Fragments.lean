import Sails.Net.Http.Headers
import Mathlib.Data.List.Forall2

/-!
# Messages do not depend on how they are cut into pieces

The parser hands over every text of a message in pieces. Here a message is given as a whole and a
cutting of it separately, and what the callbacks make of the pieces is stated by lists of bytes.

- `Message`, `Cutting`: a message within the limits of the record, the callbacks it comes in
- `Collected`: the texts received so far, and the record that holds them
- one lemma per callback: it appends the piece to a text
- `fragmentation_independent`: the completed messages are those of the sender, for every cutting
-/

namespace Sails.Net

open TransitionRun
open CMemory
open Sails.Base

/-! ## Messages and cuttings -/

/-- A message as it is sent, within the limits of the record that has to hold it. -/
structure Message where
  url : Text maxPathSize
  headers : List (Text maxElementSize × Text maxElementSize)
  body : Text maxBodySize
  /-- what the parser says of the message; the last field is what it says of the whole body -/
  answers : HttpParser
  headers_le : headers.length ≤ maxHeaders
  url_lt : url.bytes.length < 1000
  host_lt : ∀ h ∈ headers, h.1.bytes = ascii "Host" → url.bytes.length + h.2.bytes.length < 1000

/-- Names and values as bytes. -/
def Message.headerTexts (msg : Message) : List (Bytes × Bytes) :=
  msg.headers.map fun h => (h.1.bytes, h.2.bytes)

/-- The pieces a message comes in, with the state of the parser at each callback that reads it. -/
structure Cutting where
  url : List Bytes
  headers : List (List Bytes × List Bytes)
  headersComplete : HttpParser
  body : List (HttpParser × Bytes)
  messageComplete : HttpParser

/-- The callbacks, in the order of the parser. -/
def Cutting.callbacks (c : Cutting) : List Callback :=
  .messageBegin :: c.url.map .requestUrl ++
    c.headers.flatMap (fun h => h.1.map .headerField ++ h.2.map .headerValue) ++
    .headersComplete c.headersComplete :: c.body.map (fun b => .body b.1 b.2) ++
    [.messageComplete c.messageComplete]

/-- What `check_body_is_final` keeps of the answers at the pieces of a body: the first that is
not zero. -/
def finalAnswer : List Int → Int
  | [] => 0
  | a :: as => if a ≠ 0 then a else finalAnswer as

/-- The cutting is one of this message. Names and values come in one or more pieces, the url and
the body in any number of them; a piece may be empty. -/
structure Cuts (msg : Message) (c : Cutting) : Prop where
  url : c.url.flatten = msg.url.bytes
  pieces : ∀ h ∈ c.headers, h.1 ≠ [] ∧ h.2 ≠ []
  headers : c.headers.map (fun h => (h.1.flatten, h.2.flatten)) = msg.headerTexts
  body : (c.body.map Prod.snd).flatten = msg.body.bytes
  answers : { c.headersComplete with
    bodyIsFinal := finalAnswer (c.body.map fun b => b.1.bodyIsFinal) } = msg.answers
  /-- `http_should_keep_alive` answers the same in both callbacks of the message -/
  keepAlive : c.messageComplete.shouldKeepAlive = msg.answers.shouldKeepAlive
  /-- `http_body_is_final` says so at the end of a message only if it did at a piece of the body -/
  final : c.messageComplete.bodyIsFinal ≠ 0 → msg.body.bytes ≠ [] → msg.answers.bodyIsFinal ≠ 0

/-! ## What has been collected -/

/-- The texts of the message under construction. -/
structure Collected where
  url : Bytes
  headers : List (Bytes × Bytes)
  last : HeaderElement
  body : Bytes

/-- The record with the collected texts in its arrays. -/
def Collected.fill (c : Collected) (m : HttpMessage) : HttpMessage :=
  { m with
    requestUrl := .ofBytes _ c.url
    numHeaders := c.headers.length
    lastHeaderElement := c.last
    headers := headerTable c.headers
    body := .ofBytes _ c.body
    bodySize := c.body.length }

/-- Nothing collected. -/
def Collected.empty : Collected := ⟨[], [], .none, []⟩

theorem fill_empty : Collected.empty.fill .init = .init := by
  rw [Collected.fill, Collected.empty, headerTable_nil]
  simp [HttpMessage.init]

/-! ## Appending a piece -/

/-- `strlncat` on an array that holds the text so far. -/
theorem strlncat_piece {n : Nat} {s piece : Bytes} (h : IsText n (s ++ piece)) :
    strlncat (CharArray.ofBytes n s) piece =
      .ok (CharArray.ofBytes n (s ++ piece), piece.length + s.length) :=
  strlncat_ofBytes h.of_append.2 (fun c hc => h.2 c (List.mem_append_right _ hc)) (by
    have hlt := h.1
    rwa [List.length_append] at hlt)

section Callbacks

variable {url body : Bytes} {hs : List (Bytes × Bytes)} {last : HeaderElement} {m : HttpMessage}
variable {piece : Bytes}

theorem requestUrlCb_fill (h : IsText maxPathSize (url ++ piece)) :
    requestUrlCb (Collected.fill ⟨url, hs, last, body⟩ m) piece =
      .ok (Collected.fill ⟨url ++ piece, hs, last, body⟩ m) := by
  simp only [requestUrlCb, Collected.fill, strlncat_piece h, bind, Except.bind]

/-- The first piece of a name begins a new header. -/
theorem headerFieldCb_first (hlast : last ≠ .field) (hroom : hs.length < maxHeaders)
    (h : IsText maxElementSize piece) :
    headerFieldCb (Collected.fill ⟨url, hs, last, body⟩ m) piece =
      .ok (Collected.fill ⟨url, hs ++ [(piece, [])], .field, body⟩ m) := by
  have hcat : strlncat (CharArray.ofBytes maxElementSize []) piece =
      .ok (CharArray.ofBytes maxElementSize piece, piece.length + 0) := strlncat_piece h
  have hindex : (hs.length : Int) + 1 - 1 = hs.length := by omega
  -- the place behind the headers is still that of an empty record
  have hplace : headerTable hs ⟨hs.length, hroom⟩ = ⟨.ofBytes _ [], .ofBytes _ []⟩ := by
    rw [← headerTable_concat_nil, headerTable_last]
  have htable := update_headerTable hs ([], []) (piece, []) hroom
  rw [headerTable_concat_nil] at htable
  simp only [headerFieldCb, Collected.fill, ne_eq, hlast, not_false_eq_true, if_true, hindex,
    headerAt_natCast hroom, hplace, hcat, bind, Except.bind, htable]
  simp

/-- A further piece of a name goes to the header of the one before. -/
theorem headerFieldCb_more {name value : Bytes} (hroom : hs.length < maxHeaders)
    (h : IsText maxElementSize (name ++ piece)) :
    headerFieldCb (Collected.fill ⟨url, hs ++ [(name, value)], .field, body⟩ m) piece =
      .ok (Collected.fill ⟨url, hs ++ [(name ++ piece, value)], .field, body⟩ m) := by
  -- `num_headers - 1` is the header that was begun last
  have hindex : ((hs ++ [(name, value)]).length : Int) - 1 = hs.length := by simp
  have htable := update_headerTable hs (name, value) (name ++ piece, value) hroom
  simp only [headerFieldCb, Collected.fill, ne_eq, not_true_eq_false, if_false, hindex,
    headerAt_natCast hroom, headerTable_last, strlncat_piece h, bind, Except.bind, htable]
  simp

/-- A piece of a value goes to the last header. -/
theorem headerValueCb_fill {name value : Bytes} (hroom : hs.length < maxHeaders)
    (h : IsText maxElementSize (value ++ piece)) :
    headerValueCb (Collected.fill ⟨url, hs ++ [(name, value)], last, body⟩ m) piece =
      .ok (Collected.fill ⟨url, hs ++ [(name, value ++ piece)], .value, body⟩ m) := by
  have hindex : ((hs ++ [(name, value)]).length : Int) - 1 = hs.length := by simp
  have htable := update_headerTable hs (name, value) (name, value ++ piece) hroom
  simp only [headerValueCb, Collected.fill, hindex, headerAt_natCast hroom, headerTable_last,
    strlncat_piece h, bind, Except.bind, htable]
  simp

theorem finalAnswer_concat (as : List Int) (a : Int) :
    finalAnswer (as ++ [a]) = if finalAnswer as ≠ 0 then finalAnswer as else a := by
  induction as with
  | nil => by_cases ha : a = 0 <;> simp [finalAnswer, ha]
  | cons b bs ih =>
    by_cases hb : b = 0
    · simp [finalAnswer, hb, ih]
    · simp [finalAnswer, hb]

variable (url hs last m) in
/-- A piece of the body, with the parser's answer at it. -/
theorem bodyCb_fill (h : IsText maxBodySize (body ++ piece)) (answers : List Int) (flag : Int)
    (list : List HttpMessage) (p : HttpParser) :
    ∃ flag', bodyCb ⟨Collected.fill ⟨url, hs, last, body⟩ { m with bodyIsFinal := finalAnswer answers },
        flag, list⟩ p piece =
      .ok ⟨Collected.fill ⟨url, hs, last, body ++ piece⟩
        { m with bodyIsFinal := finalAnswer (answers ++ [p.bodyIsFinal]) }, flag', list⟩ := by
  -- `check_body_is_final` keeps an answer that is not zero, and takes the new one otherwise
  rw [finalAnswer_concat]
  by_cases hfinal : finalAnswer answers = 0
  · refine ⟨flag, ?_⟩
    simp [bodyCb, Collected.fill, strlncat_piece h, checkBodyIsFinal, hfinal, bind, Except.bind]
  · refine ⟨-1, ?_⟩
    simp [bodyCb, Collected.fill, strlncat_piece h, checkBodyIsFinal, hfinal, bind, Except.bind]

end Callbacks

/-! ## All pieces of a text -/

/-- A parser whose record holds what has been collected. -/
def collecting (c : Collected) (m : HttpMessage) (flag : Int) (list : List HttpMessage) :
    ParserRun := ⟨⟨c.fill m, flag, list⟩, false⟩

/-- The text of the pieces received so far, and the next piece, belong to the text. -/
theorem isText_of_pieces {n : Nat} (done : List Bytes) {rest : List Bytes} {piece : Bytes}
    (h : IsText n (done ++ piece :: rest).flatten) : IsText n (done.flatten ++ piece) := by
  have hflat : (done ++ piece :: rest).flatten = done.flatten ++ piece ++ rest.flatten := by simp
  rw [hflat] at h
  exact h.of_append

section Texts

variable (parseUrls : Nat → ParseUrl) {url body : Bytes} {hs : List (Bytes × Bytes)}
variable {last : HeaderElement} {m : HttpMessage} {flag : Int} {list : List HttpMessage}

theorem url_run {pieces : List Bytes} (h : IsText maxPathSize pieces.flatten) :
    run (callbackStep parseUrls) (collecting ⟨[], hs, last, body⟩ m flag list)
        (pieces.map .requestUrl) =
      .ok (collecting ⟨pieces.flatten, hs, last, body⟩ m flag list) := by
  -- after each piece the record holds the text of the pieces so far
  let R : List Bytes → ParserRun → Prop := fun done s =>
    s = collecting ⟨done.flatten, hs, last, body⟩ m flag list
  have hstep : ∀ done piece rest s, pieces = done ++ piece :: rest → R done s →
      ∃ t, callbackStep parseUrls s (.requestUrl piece) = .ok t ∧ R (done ++ [piece]) t := by
    rintro done piece rest s rfl rfl
    refine ⟨collecting ⟨done.flatten ++ piece, hs, last, body⟩ m flag list, ?_, by simp [R]⟩
    simp only [callbackStep, callback, collecting, requestUrlCb_fill (isText_of_pieces _ h), bind,
      Except.bind]
    rfl
  obtain ⟨t, hrun, rfl⟩ := run_map hstep rfl
  exact hrun

/-- A name in one or more pieces is a new header. -/
theorem name_run {pieces : List Bytes} (hne : pieces ≠ []) (hlast : last ≠ .field)
    (hroom : hs.length < maxHeaders) (h : IsText maxElementSize pieces.flatten) :
    run (callbackStep parseUrls) (collecting ⟨url, hs, last, body⟩ m flag list)
        (pieces.map .headerField) =
      .ok (collecting ⟨url, hs ++ [(pieces.flatten, [])], .field, body⟩ m flag list) := by
  cases pieces with
  | nil => contradiction
  | cons first pieces =>
    let R : List Bytes → ParserRun → Prop := fun done s =>
      s = collecting ⟨url, hs ++ [(first ++ done.flatten, [])], .field, body⟩ m flag list
    -- the first piece makes the header, and the others are appended to its name
    have hfirst : callbackStep parseUrls (collecting ⟨url, hs, last, body⟩ m flag list)
        (.headerField first) =
        .ok (collecting ⟨url, hs ++ [(first ++ [], [])], .field, body⟩ m flag list) := by
      have htext : IsText maxElementSize first := isText_of_pieces [] h
      simp only [callbackStep, callback, collecting, headerFieldCb_first hlast hroom htext, bind,
        Except.bind, List.append_nil]
      rfl
    have hstep : ∀ done piece rest s, pieces = done ++ piece :: rest → R done s →
        ∃ t, callbackStep parseUrls s (.headerField piece) = .ok t ∧ R (done ++ [piece]) t := by
      rintro done piece rest s rfl rfl
      refine ⟨collecting ⟨url, hs ++ [(first ++ done.flatten ++ piece, [])], .field, body⟩ m flag
        list, ?_, by simp [R]⟩
      have htext : IsText maxElementSize (first ++ done.flatten ++ piece) :=
        isText_of_pieces (first :: done) h
      simp only [callbackStep, callback, collecting, headerFieldCb_more hroom htext, bind,
        Except.bind]
      rfl
    obtain ⟨t, hrun, rfl⟩ := run_map hstep rfl
    rw [List.map_cons, run_cons_ok hfirst]
    exact hrun

/-- A value in one or more pieces belongs to the header before it. -/
theorem value_run {pieces : List Bytes} (hne : pieces ≠ []) {name : Bytes}
    (hroom : hs.length < maxHeaders) (h : IsText maxElementSize pieces.flatten) :
    run (callbackStep parseUrls) (collecting ⟨url, hs ++ [(name, [])], .field, body⟩ m flag list)
        (pieces.map .headerValue) =
      .ok (collecting ⟨url, hs ++ [(name, pieces.flatten)], .value, body⟩ m flag list) := by
  -- the first piece ends the name, so `last` changes with it
  let R : List Bytes → ParserRun → Prop := fun done s =>
    s = collecting ⟨url, hs ++ [(name, done.flatten)], if done = [] then .field else .value, body⟩ m
      flag list
  have hstep : ∀ done piece rest s, pieces = done ++ piece :: rest → R done s →
      ∃ t, callbackStep parseUrls s (.headerValue piece) = .ok t ∧ R (done ++ [piece]) t := by
    rintro done piece rest s rfl rfl
    refine ⟨collecting ⟨url, hs ++ [(name, done.flatten ++ piece)], .value, body⟩ m flag list, ?_,
      by simp [R]⟩
    simp only [callbackStep, callback, collecting, headerValueCb_fill hroom (isText_of_pieces _ h),
      bind, Except.bind]
    rfl
  obtain ⟨t, hrun, rfl⟩ := run_map hstep rfl
  rw [if_neg hne] at hrun
  exact hrun

/-- One header, cut in any way. -/
theorem header_run {pieces : List Bytes × List Bytes} (hne : pieces.1 ≠ [] ∧ pieces.2 ≠ [])
    (hlast : last ≠ .field) (hroom : hs.length < maxHeaders)
    (hname : IsText maxElementSize pieces.1.flatten)
    (hvalue : IsText maxElementSize pieces.2.flatten) :
    run (callbackStep parseUrls) (collecting ⟨url, hs, last, body⟩ m flag list)
        (pieces.1.map .headerField ++ pieces.2.map .headerValue) =
      .ok (collecting ⟨url, hs ++ [(pieces.1.flatten, pieces.2.flatten)], .value, body⟩ m flag
        list) := by
  rw [run_append (name_run parseUrls hne.1 hlast hroom hname)]
  exact value_run parseUrls hne.2 hroom hvalue

/-- What the header callbacks remember of a message with these headers. -/
def lastElement {γ : Type} (headers : List γ) : HeaderElement :=
  if headers.isEmpty then .none else .value

/-- All headers of a message. -/
theorem headers_run {msg : Message} {c : Cutting} (hcut : Cuts msg c) :
    run (callbackStep parseUrls) (collecting ⟨url, [], .none, body⟩ m flag list)
        (c.headers.flatMap fun h => h.1.map .headerField ++ h.2.map .headerValue) =
      .ok (collecting ⟨url, msg.headerTexts, lastElement c.headers, body⟩ m flag list) := by
  -- whole headers are received one after the other
  let R : List (List Bytes × List Bytes) → ParserRun → Prop := fun done s =>
    s = collecting ⟨url, done.map fun h => (h.1.flatten, h.2.flatten), lastElement done, body⟩ m flag
      list
  have hlength : c.headers.length ≤ maxHeaders := by
    have hlen := congrArg List.length hcut.headers
    simp only [Message.headerTexts, List.length_map] at hlen
    exact hlen.trans_le msg.headers_le
  have hstep : ∀ done x rest s, c.headers = done ++ x :: rest → R done s →
      ∃ t, run (callbackStep parseUrls) s (x.1.map .headerField ++ x.2.map .headerValue) = .ok t ∧
        R (done ++ [x]) t := by
    rintro done x rest s hitems rfl
    have hx : x ∈ c.headers := by simp [hitems]
    have hroom : (done.map fun h => (h.1.flatten, h.2.flatten)).length < maxHeaders := by
      simp only [hitems, List.length_append, List.length_cons] at hlength
      simp only [List.length_map]
      omega
    have hlast : lastElement done ≠ .field := by
      unfold lastElement
      split <;> simp
    -- the pieces belong to a header of the message, whose texts fit
    have hmem : (x.1.flatten, x.2.flatten) ∈ msg.headerTexts :=
      hcut.headers ▸ List.mem_map_of_mem hx
    obtain ⟨h, -, htexts⟩ := List.mem_map.mp hmem
    obtain ⟨hname, hvalue⟩ := Prod.mk.inj htexts
    refine ⟨_, header_run parseUrls (hcut.pieces x hx) hlast hroom (hname ▸ h.1.isText)
      (hvalue ▸ h.2.isText), ?_⟩
    simp [R, lastElement]
  obtain ⟨t, hrun, rfl⟩ := run_flatMap hstep rfl
  rw [hcut.headers] at hrun
  exact hrun

/-- The body, with the parser's answers at its pieces. -/
theorem body_run {pieces : List (HttpParser × Bytes)} (hm : m.bodyIsFinal = 0)
    (h : IsText maxBodySize (pieces.map Prod.snd).flatten) :
    ∃ flag', run (callbackStep parseUrls) (collecting ⟨url, hs, last, []⟩ m flag list)
        (pieces.map fun b => .body b.1 b.2) =
      .ok (collecting ⟨url, hs, last, (pieces.map Prod.snd).flatten⟩
        { m with bodyIsFinal := finalAnswer (pieces.map fun b => b.1.bodyIsFinal) } flag' list) := by
  let R : List (HttpParser × Bytes) → ParserRun → Prop := fun done s =>
    ∃ flag', s = collecting ⟨url, hs, last, (done.map Prod.snd).flatten⟩
      { m with bodyIsFinal := finalAnswer (done.map fun b => b.1.bodyIsFinal) } flag' list
  have hstep : ∀ done x rest s, pieces = done ++ x :: rest → R done s →
      ∃ t, callbackStep parseUrls s (.body x.1 x.2) = .ok t ∧ R (done ++ [x]) t := by
    rintro done x rest s rfl ⟨flag', rfl⟩
    have htext : IsText maxBodySize ((done.map Prod.snd).flatten ++ x.2) := by
      rw [List.map_append, List.map_cons] at h
      exact isText_of_pieces _ h
    obtain ⟨flag'', hbody⟩ := bodyCb_fill url hs last m htext
      (done.map fun b => b.1.bodyIsFinal) flag' list x.1
    refine ⟨collecting ⟨url, hs, last, (done.map Prod.snd).flatten ++ x.2⟩
      { m with bodyIsFinal := finalAnswer ((done.map fun b => b.1.bodyIsFinal) ++ [x.1.bodyIsFinal]) }
      flag'' list, ?_, flag'', by simp⟩
    simp only [callbackStep, callback, collecting, hbody, bind, Except.bind]
    rfl
  have hstart : R [] (collecting ⟨url, hs, last, []⟩ m flag list) := ⟨flag, by
    have hm' : { m with bodyIsFinal := finalAnswer [] } = m := by
      rw [finalAnswer, ← hm]
    simp only [List.map_nil, List.flatten_nil, hm']⟩
  obtain ⟨t, hrun, flag', rfl⟩ := run_map hstep hstart
  exact ⟨flag', hrun⟩

end Texts

/-! ## A whole message -/

/-- The record of a message when its last callback is made, before its url is taken apart. -/
def Message.received (msg : Message) : HttpMessage :=
  Collected.fill ⟨msg.url.bytes, msg.headerTexts, lastElement msg.headers, msg.body.bytes⟩
    { headersCompleteCb { HttpMessage.init with messageBeginCbCalled := true } msg.answers with
      bodyIsFinal := msg.answers.bodyIsFinal
      messageCompleteCbCalled := true
      messageCompleteOnEof := true }

/-- The record of a message once it is complete. -/
def Message.completed (parseUrl : ParseUrl) (msg : Message) : HttpMessage :=
  match parserUrl parseUrl msg.received with
  | .ok m => m
  | .error _ => msg.received

namespace Message

variable (msg : Message)

theorem length_headerTexts : msg.headerTexts.length = msg.headers.length := List.length_map ..

/-- The places of the array that hold the message's headers. -/
theorem headerTable_of_lt {i : Fin maxHeaders} (hi : (i : Nat) < msg.headers.length) :
    headerTable msg.headerTexts i =
      ⟨.ofBytes _ (msg.headers.get ⟨i, hi⟩).1.bytes, .ofBytes _ (msg.headers.get ⟨i, hi⟩).2.bytes⟩ := by
  have hget : msg.headerTexts.getD i ([], []) =
      ((msg.headers.get ⟨i, hi⟩).1.bytes, (msg.headers.get ⟨i, hi⟩).2.bytes) := by
    rw [headerTexts, List.getD_eq_getElem?_getD, List.getElem?_map, List.getElem?_eq_getElem hi]
    rfl
  rw [headerTable, hget]

/-- The places behind them are empty. -/
theorem headerTable_of_ge {i : Fin maxHeaders} (hi : msg.headers.length ≤ i) :
    headerTable msg.headerTexts i = ⟨.zero _, .zero _⟩ := by
  have hget : msg.headerTexts.getD i ([], []) = ([], []) :=
    List.getD_eq_default _ _ (by rwa [msg.length_headerTexts])
  rw [headerTable, hget]
  simp

theorem terminated_headerTable (i : Fin maxHeaders) :
    (headerTable msg.headerTexts i).name.Terminated ∧
      (headerTable msg.headerTexts i).value.Terminated := by
  -- the places of the headers hold their texts, the places behind them nothing
  rcases Nat.lt_or_ge i msg.headers.length with hi | hi
  · rw [msg.headerTable_of_lt hi]
    exact ⟨Text.terminated_ofBytes _, Text.terminated_ofBytes _⟩
  · rw [msg.headerTable_of_ge hi]
    exact ⟨CharArray.terminated_zero (by decide), CharArray.terminated_zero (by decide)⟩

theorem building_received : msg.received.Building where
  numHeaders_nonneg := Int.natCast_nonneg _
  numHeaders_le := by
    change (msg.headerTexts.length : Int) ≤ maxHeaders
    rw [msg.length_headerTexts]
    exact Int.ofNat_le.mpr msg.headers_le
  responseStatus := CharArray.terminated_zero (by decide)
  requestPath := CharArray.terminated_zero (by decide)
  requestUrl := msg.url.terminated_ofBytes
  queryString := CharArray.terminated_zero (by decide)
  body := msg.body.terminated_ofBytes
  name := fun i => (msg.terminated_headerTable i).1
  value := fun i => (msg.terminated_headerTable i).2
  query_zero := rfl
  host_none := rfl
  begun := fun hlast => by
    change 1 ≤ (msg.headerTexts.length : Int)
    have hne : lastElement msg.headers ≠ .none := hlast
    cases hheaders : msg.headers with
    | nil => simp [lastElement, hheaders] at hne
    | cons h hs =>
      simp only [headerTexts, hheaders, List.map_cons, List.length_cons]
      omega

end Message

/-- What the search for the host finds. -/
theorem findHost_eq_some {headers : Fin maxHeaders → Header} {i remaining : Nat}
    {j : Fin maxHeaders} (h : findHost headers i remaining = .ok (some j)) :
    (headers j).name.str = ascii "Host" ∧ (j : Nat) < i + remaining := by
  -- on the headers still to be looked at
  induction remaining generalizing i with
  | zero => cases h
  | succ remaining ih =>
    simp only [findHost] at h
    split at h
    · split at h
      · rename_i hname
        cases h
        exact ⟨hname, by simp⟩
      · obtain ⟨hname, hlt⟩ := ih h
        exact ⟨hname, by omega⟩
    · cases h

/-- The url that is put together fits its array. -/
theorem Message.url_fits (msg : Message) : msg.received.UrlFits := by
  have hurl : msg.received.requestUrl.str = msg.url.bytes := msg.url.str_ofBytes
  have hsum : msg.url.bytes.length + msg.received.hostValue.length < 1000 := by
    unfold HttpMessage.hostValue
    split
    · rename_i j hfound
      obtain ⟨hname, hlt⟩ := findHost_eq_some hfound
      have hj : (j : Nat) < msg.headers.length := by
        change (j : Nat) < 0 + (msg.headerTexts.length : Int).toNat at hlt
        rw [msg.length_headerTexts] at hlt
        omega
      have hheader : msg.received.headers j = _ := msg.headerTable_of_lt hj
      rw [hheader] at hname ⊢
      rw [Text.str_ofBytes] at hname ⊢
      exact msg.host_lt _ (List.get_mem ..) hname
    · simpa using msg.url_lt
  have hmax : maxPathSize = 1024 := rfl
  rw [HttpMessage.UrlFits, hurl]
  omega

theorem storeQuery_frame {m m' : HttpMessage} {url : Bytes} {query : Option (Nat × Nat)}
    (h : storeQuery m url query = .ok m') :
    m' = { m with requestPath := m'.requestPath, queryString := m'.queryString } := by
  cases query with
  | none =>
    cases h
    rfl
  | some part =>
    obtain ⟨queryString, -, h⟩ := ok_of_bind h
    obtain ⟨requestPath, -, h⟩ := ok_of_bind h
    cases h
    rfl

/-- `parser_url` writes the parts of the url and nothing else. -/
theorem parserUrl_frame {parseUrl : ParseUrl} {m m' : HttpMessage}
    (h : parserUrl parseUrl m = .ok m') : m' = { m with
      port := m'.port, host := m'.host, requestPath := m'.requestPath
      queryString := m'.queryString } := by
  obtain ⟨url, -, h⟩ := ok_of_bind h
  obtain ⟨answer, -, h⟩ := ok_of_bind h
  cases answer with
  | none =>
    cases h
    rfl
  | some u =>
    obtain ⟨path, -, h⟩ := ok_of_bind h
    rw [storeQuery_frame h]

/-- The record holds this message, and what stands in its arrays comes from this message alone. -/
structure Holds (msg : Message) (m : HttpMessage) : Prop where
  numHeaders : m.numHeaders = msg.headers.length
  header : ∀ (i : Fin maxHeaders) (hi : (i : Nat) < msg.headers.length),
    (m.headers i).name.str = (msg.headers.get ⟨i, hi⟩).1.bytes ∧
      (m.headers i).value.str = (msg.headers.get ⟨i, hi⟩).2.bytes
  requestUrl : m.requestUrl.str = msg.url.bytes
  body : m.bodySize = msg.body.bytes.length ∧ m.body.bytes.take m.bodySize = msg.body.bytes
  method : m.method = msg.answers.method
  version : m.httpMajor = msg.answers.httpMajor ∧ m.httpMinor = msg.answers.httpMinor
  /-- behind each text there are NULs, and headers not used are empty -/
  arrays : m.requestUrl = .ofBytes _ msg.url.bytes ∧ m.body = .ofBytes _ msg.body.bytes ∧
    m.headers = headerTable msg.headerTexts
  /-- the whole record is made of the message's texts and the parser's answers about it -/
  own : ∃ parseUrl, parserUrl parseUrl msg.received = .ok m

theorem Message.holds_of_parserUrl {parseUrl : ParseUrl} {msg : Message} {m : HttpMessage}
    (h : parserUrl parseUrl msg.received = .ok m) : Holds msg m := by
  have hframe := parserUrl_frame h
  have hheaders : m.headers = headerTable msg.headerTexts := by rw [hframe]; rfl
  have hurl : m.requestUrl = .ofBytes _ msg.url.bytes := by rw [hframe]; rfl
  have hbody : m.body = .ofBytes _ msg.body.bytes := by rw [hframe]; rfl
  have hsize : m.bodySize = msg.body.bytes.length := by rw [hframe]; rfl
  refine
    { numHeaders := ?_
      header := fun i hi => ?_
      requestUrl := by rw [hurl, Text.str_ofBytes]
      body := ⟨hsize, ?_⟩
      method := by rw [hframe]; rfl
      version := by rw [hframe]; exact ⟨rfl, rfl⟩
      arrays := ⟨hurl, hbody, hheaders⟩
      own := ⟨parseUrl, h⟩ }
  · rw [hframe]
    exact congrArg Int.ofNat msg.length_headerTexts
  · rw [hheaders, msg.headerTable_of_lt hi]
    exact ⟨Text.str_ofBytes _, Text.str_ofBytes _⟩
  · rw [hbody, hsize, CharArray.take_ofBytes msg.body.isText.1.le]

/-- The call of `http_parser_parse_url` for the message returns, and reports parts inside the url. -/
structure UrlRead (parseUrl : ParseUrl) (msg : Message) : Prop where
  answers : Answers parseUrl msg.received.urlText
  inside : ReportsInside parseUrl

/-- So do the calls for messages one after the other, from the `n`-th call on. -/
def UrlsRead (parseUrls : Nat → ParseUrl) (n : Nat) (msgs : List Message) : Prop :=
  ∀ i msg, msgs[i]? = some msg → UrlRead (parseUrls (n + i)) msg

theorem UrlRead.parserUrl_received {parseUrl : ParseUrl} {msg : Message}
    (h : UrlRead parseUrl msg) :
    parserUrl parseUrl msg.received = .ok (msg.completed parseUrl) := by
  -- the record is well formed, and the url that is put together fits
  obtain ⟨m, hok, -⟩ := parserUrl_spec h.inside msg.building_received msg.url_fits h.answers
  rw [Message.completed, hok]

/-- The record depends on what the call answers about the message's url and on nothing else. -/
theorem Message.completed_congr {parseUrl parseUrl' : ParseUrl} {msg : Message}
    (h : parseUrl msg.received.urlText = parseUrl' msg.received.urlText) :
    msg.completed parseUrl = msg.completed parseUrl' := by
  obtain ⟨url, hbuild, hstr, -⟩ := buildUrl_spec msg.building_received.toWellFormed msg.url_fits
  rw [← hstr] at h
  have hsame : parserUrl parseUrl msg.received = parserUrl parseUrl' msg.received := by
    simp only [parserUrl, hbuild, h, bind, Except.bind]
  rw [Message.completed, Message.completed, hsame]

/-- The records agree in everything but what `parser_url` makes of the url. -/
def SameTexts (m m' : HttpMessage) : Prop :=
  m' = { m with
    port := m'.port, host := m'.host, requestPath := m'.requestPath, queryString := m'.queryString }

theorem Message.sameTexts_of_parserUrl {parseUrl parseUrl' : ParseUrl} {msg : Message}
    {m m' : HttpMessage} (h : parserUrl parseUrl msg.received = .ok m)
    (h' : parserUrl parseUrl' msg.received = .ok m') : SameTexts m m' := by
  rw [SameTexts, parserUrl_frame h, parserUrl_frame h']

section Messages

variable {parseUrls : Nat → ParseUrl} {msg : Message} {c : Cutting}

theorem Cuts.lastElement_eq (hcut : Cuts msg c) : lastElement c.headers = lastElement msg.headers := by
  have hlen := congrArg List.length hcut.headers
  simp only [Message.headerTexts, List.length_map] at hlen
  simp only [lastElement, List.isEmpty_iff_length_eq_zero, hlen]

theorem Cuts.finalAnswer_eq (hcut : Cuts msg c) :
    finalAnswer (c.body.map fun b => b.1.bodyIsFinal) = msg.answers.bodyIsFinal :=
  congrArg HttpParser.bodyIsFinal hcut.answers

/-- `headers_complete_cb` reads the parser's answers about the message. -/
theorem Cuts.headersCompleteCb_eq (hcut : Cuts msg c) (m : HttpMessage) :
    headersCompleteCb m c.headersComplete = headersCompleteCb m msg.answers := by
  rw [← hcut.answers]
  rfl

/-- The message passes the checks of `message_complete_cb`. -/
theorem Cuts.consistent (hcut : Cuts msg c) {m : HttpMessage}
    (halive : m.shouldKeepAlive = msg.answers.shouldKeepAlive)
    (hsize : m.bodySize = msg.body.bytes.length)
    (hfinal : m.bodyIsFinal = msg.answers.bodyIsFinal) : MessageConsistent m c.messageComplete := by
  refine ⟨halive.trans hcut.keepAlive.symm, ?_⟩
  rintro ⟨hbody, hanswer, hzero⟩
  -- a body that is not empty was declared final at a piece of it
  have hne : msg.body.bytes ≠ [] := fun hnil => hbody (by rw [hsize, hnil]; rfl)
  exact hcut.final hanswer hne (hfinal.symm.trans hzero)

/-- **One message**: however it is cut, it is appended to the list and a fresh record is taken. -/
theorem message_run (hcut : Cuts msg c) (flag : Int) (list : List HttpMessage)
    (hread : UrlRead (parseUrls list.length) msg) :
    ∃ flag', run (callbackStep parseUrls) (collecting .empty .init flag list) c.callbacks =
      .ok (collecting .empty .init flag' (list ++ [msg.completed (parseUrls list.length)])) := by
  -- the callbacks one after the other, each from the record the one before has left
  let begun : HttpMessage := { HttpMessage.init with messageBeginCbCalled := true }
  let answered : HttpMessage := headersCompleteCb begun msg.answers
  have hbegin : callbackStep parseUrls (collecting .empty .init flag list) .messageBegin =
      .ok (collecting ⟨[], [], .none, []⟩ begun flag list) := rfl
  have hurl : run (callbackStep parseUrls) (collecting ⟨[], [], .none, []⟩ begun flag list)
      (c.url.map .requestUrl) =
      .ok (collecting ⟨c.url.flatten, [], .none, []⟩ begun flag list) :=
    url_run parseUrls (hcut.url ▸ msg.url.isText)
  have hheaders : run (callbackStep parseUrls)
      (collecting ⟨c.url.flatten, [], .none, []⟩ begun flag list)
      (c.headers.flatMap fun h => h.1.map .headerField ++ h.2.map .headerValue) =
      .ok (collecting ⟨c.url.flatten, msg.headerTexts, lastElement c.headers, []⟩ begun flag list) :=
    headers_run parseUrls hcut
  have hcomplete : callbackStep parseUrls
      (collecting ⟨c.url.flatten, msg.headerTexts, lastElement c.headers, []⟩ begun flag list)
      (.headersComplete c.headersComplete) =
      .ok (collecting ⟨c.url.flatten, msg.headerTexts, lastElement c.headers, []⟩ answered flag
        list) := by
    have hanswers := hcut.headersCompleteCb_eq
      (Collected.fill ⟨c.url.flatten, msg.headerTexts, lastElement c.headers, []⟩ begun)
    simp only [callbackStep, callback, collecting, hanswers, bind, Except.bind]
    rfl
  obtain ⟨flag', hbody⟩ : ∃ flag', run (callbackStep parseUrls)
      (collecting ⟨c.url.flatten, msg.headerTexts, lastElement c.headers, []⟩ answered flag list)
      (c.body.map fun b => .body b.1 b.2) =
      .ok (collecting ⟨c.url.flatten, msg.headerTexts, lastElement c.headers,
        (c.body.map Prod.snd).flatten⟩ { answered with
          bodyIsFinal := finalAnswer (c.body.map fun b => b.1.bodyIsFinal) } flag' list) :=
    body_run parseUrls rfl (hcut.body ▸ msg.body.isText)
  have hend : callbackStep parseUrls
      (collecting ⟨c.url.flatten, msg.headerTexts, lastElement c.headers,
        (c.body.map Prod.snd).flatten⟩ { answered with
          bodyIsFinal := finalAnswer (c.body.map fun b => b.1.bodyIsFinal) } flag' list)
      (.messageComplete c.messageComplete) =
      .ok (collecting .empty .init flag' (list ++ [msg.completed (parseUrls list.length)])) := by
    rw [hcut.url, hcut.lastElement_eq, hcut.body, hcut.finalAnswer_eq]
    have hconsistent := hcut.consistent
      (m := Collected.fill ⟨msg.url.bytes, msg.headerTexts, lastElement msg.headers, msg.body.bytes⟩
        { answered with bodyIsFinal := msg.answers.bodyIsFinal }) rfl rfl rfl
    have hparsed := hread.parserUrl_received
    -- the checks are passed, the url is taken apart, and the record goes to the list
    have hcallback : messageCompleteCb (parseUrls list.length)
        ⟨Collected.fill ⟨msg.url.bytes, msg.headerTexts, lastElement msg.headers, msg.body.bytes⟩
          { answered with bodyIsFinal := msg.answers.bodyIsFinal }, flag', list⟩ c.messageComplete =
        .ok (⟨.init, flag', list ++ [msg.completed (parseUrls list.length)]⟩, 0) := by
      rw [messageCompleteCb, if_pos hconsistent]
      exact congrArg (fun r : Except Fault HttpMessage =>
        r >>= fun m => .ok (ParserFlag.mk .init flag' (list ++ [m]), (0 : Int))) hparsed
    rw [collecting, collecting, fill_empty]
    simp only [callbackStep, callback, hcallback, bind, Except.bind]
    rfl
  refine ⟨flag', ?_⟩
  have htail : run (callbackStep parseUrls)
      (collecting ⟨c.url.flatten, msg.headerTexts, lastElement c.headers, []⟩ begun flag list)
      (.headersComplete c.headersComplete :: c.body.map (fun b => .body b.1 b.2) ++
        [.messageComplete c.messageComplete]) =
      .ok (collecting .empty .init flag' (list ++ [msg.completed (parseUrls list.length)])) := by
    rw [List.cons_append, run_cons_ok hcomplete, run_append hbody]
    exact run_cons_ok hend
  rw [Cutting.callbacks, List.append_assoc, List.cons_append, List.cons_append, run_cons_ok hbegin,
    List.append_assoc, run_append hurl, run_append hheaders]
  exact htail

/-- A pipeline of messages, each cut in its own way, and each with a call of the url parser of its
own. -/
theorem messages_run {msgs : List Message} {cs : List Cutting} (hcuts : List.Forall₂ Cuts msgs cs)
    (flag : Int) (list : List HttpMessage) (hread : UrlsRead parseUrls list.length msgs) :
    ∃ flag', run (callbackStep parseUrls) (collecting .empty .init flag list)
        (cs.flatMap Cutting.callbacks) =
      .ok (collecting .empty .init flag'
        (list ++ msgs.mapIdx fun i msg => msg.completed (parseUrls (list.length + i)))) := by
  -- each message starts from an empty record, whatever came before it
  induction hcuts generalizing flag list with
  | nil => exact ⟨flag, by simp⟩
  | @cons msg _ msgs _ hcut _ ih =>
    obtain ⟨flag₁, hfirst⟩ := message_run hcut flag list (hread 0 msg rfl)
    have htail : UrlsRead parseUrls (list ++ [msg.completed (parseUrls list.length)]).length msgs := by
      intro i m hm
      rw [List.length_append, List.length_singleton, Nat.succ_add_eq_add_succ]
      exact hread (i + 1) m hm
    obtain ⟨flag₂, hrest⟩ := ih flag₁ (list ++ [msg.completed (parseUrls list.length)]) htail
    refine ⟨flag₂, ?_⟩
    rw [List.flatMap_cons, run_append hfirst, hrest, List.append_assoc, List.mapIdx_cons]
    -- the calls go on behind the one of the first message
    simp only [List.length_append, List.length_singleton, Nat.add_assoc, Nat.add_comm 1,
      Nat.add_zero, List.singleton_append]

/-- What holds of each message and its place holds of all of them. -/
theorem forall₂_mapIdx {α β γ : Type*} {R : β → γ → Prop} {f : Nat → α → β} {g : Nat → α → γ}
    {as : List α} (h : ∀ i a, as[i]? = some a → R (f i a) (g i a)) :
    List.Forall₂ R (as.mapIdx f) (as.mapIdx g) := by
  induction as generalizing f g with
  | nil => exact .nil
  | cons a as ih =>
    rw [List.mapIdx_cons, List.mapIdx_cons]
    exact .cons (h 0 a rfl) (ih fun i b hb => h (i + 1) b hb)

/-- The completed messages hold what was sent. -/
theorem holds_completed {n : Nat} {msgs : List Message} (hread : UrlsRead parseUrls n msgs) :
    List.Forall₂ Holds msgs (msgs.mapIdx fun i msg => msg.completed (parseUrls (n + i))) := by
  have hself : msgs.mapIdx (fun _ msg => msg) = msgs := by
    rw [List.mapIdx_eq_zipIdx_map]
    simp
  have hall := forall₂_mapIdx (R := Holds) (f := fun _ msg => msg)
    (g := fun i msg => msg.completed (parseUrls (n + i)))
    (fun i msg hmsg => Message.holds_of_parserUrl (hread i msg hmsg).parserUrl_received)
  rwa [hself] at hall

end Messages

/-- **Fragmentation independence**: two ways of cutting the same messages complete the same
records, and these hold the messages that were sent. Only what `parser_url` makes of a url may
differ, and not even that where the two calls of `http_parser_parse_url` answer the same. -/
theorem fragmentation_independent {parseUrls parseUrls' : Nat → ParseUrl}
    {msgs : List Message} {cs cs' : List Cutting} (hread : UrlsRead parseUrls 0 msgs)
    (hread' : UrlsRead parseUrls' 0 msgs) (hcuts : List.Forall₂ Cuts msgs cs)
    (hcuts' : List.Forall₂ Cuts msgs cs') :
    ∃ s s', run (callbackStep parseUrls) .init (cs.flatMap Cutting.callbacks) = .ok s ∧
      run (callbackStep parseUrls') .init (cs'.flatMap Cutting.callbacks) = .ok s' ∧
      List.Forall₂ SameTexts s.parserFlag.messageList s'.parserFlag.messageList ∧
      (∀ i msg, msgs[i]? = some msg →
        parseUrls i msg.received.urlText = parseUrls' i msg.received.urlText →
          s.parserFlag.messageList[i]? = s'.parserFlag.messageList[i]?) ∧
      List.Forall₂ Holds msgs s.parserFlag.messageList ∧
      List.Forall₂ Holds msgs s'.parserFlag.messageList := by
  -- a new parser has collected nothing
  have hinit : ParserRun.init = collecting .empty .init 0 [] := by
    rw [collecting, fill_empty]
    rfl
  obtain ⟨flag, hrun⟩ := messages_run hcuts 0 [] hread
  obtain ⟨flag', hrun'⟩ := messages_run hcuts' 0 [] hread'
  rw [hinit]
  refine ⟨collecting .empty .init flag _, collecting .empty .init flag' _, hrun, hrun', ?_, ?_, ?_, ?_⟩
  · exact forall₂_mapIdx fun i msg hmsg => Message.sameTexts_of_parserUrl
      (hread i msg hmsg).parserUrl_received (hread' i msg hmsg).parserUrl_received
  · intro i msg hmsg hanswer
    have hsame : msg.completed (parseUrls (0 + i)) = msg.completed (parseUrls' (0 + i)) := by
      rw [Nat.zero_add]
      exact Message.completed_congr hanswer
    simp only [collecting, List.nil_append, List.getElem?_mapIdx, hmsg, Option.map_some,
      List.length_nil, hsame]
  · exact holds_completed hread
  · exact holds_completed hread'

/-! ## An instance -/

/-- The parser on a `POST` of HTTP/1.1 that keeps the connection open. -/
def postParser (bodyIsFinal : Int) : HttpParser := ⟨3, 0, 1, 1, 1, bodyIsFinal⟩

/-- `POST /a` with one header and a body of two bytes. -/
def postMessage : Message where
  url := ⟨ascii "/a", by decide⟩
  headers := [(⟨ascii "Host", by decide⟩, ⟨ascii "h", by decide⟩)]
  body := ⟨ascii "xy", by decide⟩
  answers := postParser 1
  headers_le := by decide
  url_lt := by decide
  host_lt := by decide

/-- The message in as few pieces as possible. -/
def postWhole : Cutting where
  url := [ascii "/a"]
  headers := [([ascii "Host"], [ascii "h"])]
  headersComplete := postParser 0
  body := [(postParser 1, ascii "xy")]
  messageComplete := postParser 0

/-- The message in single bytes, with an empty piece. -/
def postBytes : Cutting where
  url := [ascii "/", ascii "a"]
  headers := [([ascii "H", ascii "o", [], ascii "st"], [[], ascii "h"])]
  headersComplete := postParser 0
  body := [(postParser 0, ascii "x"), (postParser 1, ascii "y")]
  messageComplete := postParser 0

/-- What `http_parser_parse_url` says of the message's url, and of no other. -/
def postUrl : Nat → ParseUrl := fun _ url =>
  if url = ascii "http://h/a" then
    .ok (some { port := none, host := some (7, 1), path := some (8, 2), query := none })
  else .ok none

theorem urlRead_postUrl (k : Nat) (msg : Message) : UrlRead (postUrl k) msg where
  answers := by
    rw [Answers, postUrl]
    split <;> exact ⟨_, rfl⟩
  inside := by
    intro url u _ hanswer part hpart
    rw [postUrl] at hanswer
    split at hanswer
    · rename_i hurl
      obtain rfl := Option.some.inj (Except.ok.inj hanswer)
      subst hurl
      obtain hpart | hpart | hpart := hpart
      · obtain rfl := Option.some.inj hpart
        decide
      · obtain rfl := Option.some.inj hpart
        decide
      · cases hpart
    · cases hanswer

theorem fragmentation_independent_post :
    ∃ s s', run (callbackStep postUrl) .init ([postWhole].flatMap Cutting.callbacks) = .ok s ∧
      run (callbackStep postUrl) .init ([postBytes].flatMap Cutting.callbacks) = .ok s' ∧
      List.Forall₂ SameTexts s.parserFlag.messageList s'.parserFlag.messageList ∧
      (∀ i msg, [postMessage][i]? = some msg →
        postUrl i msg.received.urlText = postUrl i msg.received.urlText →
          s.parserFlag.messageList[i]? = s'.parserFlag.messageList[i]?) ∧
      List.Forall₂ Holds [postMessage] s.parserFlag.messageList ∧
      List.Forall₂ Holds [postMessage] s'.parserFlag.messageList := by
  refine fragmentation_independent (fun _ msg _ => urlRead_postUrl _ msg)
    (fun _ msg _ => urlRead_postUrl _ msg) ?_ ?_
  · exact .cons ⟨by decide, by decide, by decide, by decide, rfl, rfl, by decide⟩ .nil
  · exact .cons ⟨by decide, by decide, by decide, by decide, rfl, rfl, by decide⟩ .nil

end Sails.Net
