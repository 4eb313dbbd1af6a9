import Sails.Net.Http.Url
import Sails.Net.HttpParser.UrlFields

/-!
# What the url parser answers

`http_parser_parse_url` on `http://` and any text behind it.

- `Url.report`: what the caller reads of the record
- `urlParser`: the call that `parser_url` makes, with a record that is not initialised
- `urlParser_location`: a url with a host is answered with its components, whatever the record held
- `urlParser_hostless_empty`, `urlParser_hostless_outside`, `urlParser_hostless_inside`: without a host
  the second loop runs over what stood in the record
- `urlParser_refused`: any other text is refused
- `urlRead_urlParser_iff`, `completed_urlParser`: the call that completes a message
-/

namespace Sails.HttpParser

open TransitionRun (Fault)
open CMemory

/-! ## Characters -/

theorem isServerChar_of_userinfo {c : UInt8} (h : isUserinfoChar c = true) :
    isServerChar c = true := by
  simp [isServerChar, h]

theorem isServerChar_of_host {bracketed : Bool} {c : UInt8}
    (h : (if bracketed then isV6Char c else isHostChar c) = true) : isServerChar c = true := by
  revert h
  cases bracketed
  · exact forall_byte (P := fun c => isHostChar c = true → isServerChar c = true)
      (by decide +kernel) c
  · exact forall_byte (P := fun c => isV6Char c = true → isServerChar c = true)
      (by decide +kernel) c

theorem isServerChar_of_num {c : UInt8} (h : isNum c = true) : isServerChar c = true := by
  revert h
  exact forall_byte (P := fun c => isNum c = true → isServerChar c = true) (by decide +kernel) c

theorem isServerChar_hostText {bracketed : Bool} {host : Bytes} {port : Option Bytes}
    (hhost : HostOk bracketed host) (hport : PortOk port) :
    ∀ c ∈ hostText bracketed host port, isServerChar c = true := by
  have hopen : ∀ c ∈ (if bracketed then [code '['] else []), isServerChar c = true := by
    cases bracketed <;> simp; decide
  have hclose : ∀ c ∈ (if bracketed then [code ']'] else []), isServerChar c = true := by
    cases bracketed <;> simp; decide
  have hportText : ∀ c ∈ portText port, isServerChar c = true := by
    cases port with
    | none => simp [portText]
    | some digits =>
      exact List.forall_mem_cons.mpr ⟨by decide, fun c hc =>
        isServerChar_of_num ((hport digits rfl).2 c hc)⟩
  intro c hc
  obtain hc | hc := List.mem_append.mp hc
  · obtain hc | hc := List.mem_append.mp hc
    · exact hopen c hc
    · exact isServerChar_of_host (hhost c hc)
  · obtain hc | hc := List.mem_append.mp hc
    · exact hclose c hc
    · exact hportText c hc

/-- Characters of the server that are no `@` lead to the server. -/
theorem foldl_serverChars {cs : Bytes} (hcs : ∀ c ∈ cs, isServerChar c = true) {s : State}
    (hs : s.inServer = true) :
    (cs.foldl parseUrlChar s).inServer = true ∧
      (s ≠ .reqServerWithAt → cs.foldl parseUrlChar s ≠ .reqServerWithAt) := by
  induction cs generalizing s with
  | nil => exact ⟨hs, id⟩
  | cons c cs ih =>
    have hc : parseUrlChar s c = .reqServer := by
      rw [parseUrlChar_server hs, if_pos (hcs c (List.mem_cons_self ..))]
    rw [List.foldl_cons, hc]
    obtain ⟨hin, hne⟩ := ih (s := .reqServer) (fun d hd => hcs d (List.mem_cons_of_mem _ hd)) rfl
    exact ⟨hin, fun _ => hne (by decide)⟩

namespace Authority

variable (a : Authority)

/-- The first automaton goes through an authority. -/
theorem server_text :
    (∀ c ∈ a.text, isServerChar c = true ∨ c = code '@') ∧
      a.text.foldl parseUrlChar .reqServerStart ≠ .dead ∧
      (code '@' ∈ a.text ↔ a.userinfo.isSome = true) := by
  have hhost := isServerChar_hostText a.host_ok a.port_ok
  have hat : isServerChar (code '@') = false := by decide
  -- no character of the host's text is an `@`
  have hnot : ∀ cs : Bytes, (∀ c ∈ cs, isServerChar c = true) → code '@' ∉ cs := fun cs hcs hmem =>
    absurd (hcs _ hmem) (by simp [hat])
  cases hinfo : a.userinfo with
  | none =>
    have htext : a.text = hostText a.bracketed a.host a.port := by
      rw [text, hinfo]
      rfl
    rw [htext]
    refine ⟨fun c hc => .inl (hhost c hc), fun hdead => ?_, ?_⟩
    · have hin := (foldl_serverChars hhost (s := .reqServerStart) rfl).1
      rw [hdead] at hin
      cases hin
    · simpa using hnot _ hhost
  | some info =>
    have htext : a.text = info ++ code '@' :: hostText a.bracketed a.host a.port := by
      simp [text, hinfo, userinfoText]
    have hchars : ∀ c ∈ info, isServerChar c = true := fun c hc =>
      isServerChar_of_userinfo (a.userinfo_ok info hinfo c hc)
    rw [htext]
    refine ⟨fun c hc => ?_, fun hdead => ?_, by simp⟩
    · obtain hc | hc := List.mem_append.mp hc
      · exact .inl (hchars c hc)
      · obtain rfl | hc := List.mem_cons.mp hc
        · exact .inr rfl
        · exact .inl (hhost c hc)
    · obtain ⟨hin, hne⟩ := foldl_serverChars hchars (s := .reqServerStart) rfl
      -- the one `@` behind the user information is not the second in a row
      have hstep : parseUrlChar (info.foldl parseUrlChar .reqServerStart) (code '@') =
          .reqServerWithAt := by
        rw [parseUrlChar_server hin, if_neg (by simp [hat]), if_pos rfl, if_neg (hne (by decide))]
      rw [List.foldl_append, List.foldl_cons, hstep] at hdead
      have hin := (foldl_serverChars hhost (s := .reqServerWithAt) rfl).1
      rw [hdead] at hin
      cases hin

theorem text_ne_nil : a.text ≠ [] := by
  simp [text, hostText, a.host_ne_nil]

theorem hostOffset_add_le : a.hostOffset + a.host.length ≤ a.text.length := by
  cases hb : a.bracketed <;> simp [hostOffset, text, hostText, hb]
  omega

/-- The digits of the port stand at the end. -/
theorem exists_front {digits : Bytes} (h : a.port = some digits) :
    ∃ front, a.text = front ++ digits ∧ front.length = a.portOffset := by
  refine ⟨userinfoText a.userinfo ++ ((if a.bracketed then [code '['] else []) ++ a.host ++
    (if a.bracketed then [code ']'] else []) ++ [code ':']), ?_, ?_⟩
  · simp [text, hostText, h, portText]
  · cases hb : a.bracketed <;> simp [portOffset, hb]

end Authority

/-! ## Texts behind the scheme -/

/-- A url with a host. -/
structure Location where
  authority : Authority
  target : Target
  port_fits : authority.PortFits

/-- What stands behind the scheme. -/
def Location.text (l : Location) : Bytes := l.authority.text ++ l.target.text

/-- A path, a query and a fragment, with no host in front. -/
def Hostless (rest : Bytes) : Prop := ∃ t : Target, rest = t.text

/-- What the caller of `http_parser_parse_url` reads of the record. -/
def Url.report (u : Url) : Net.HttpParserUrl where
  port := if u.fieldSet .port then some u.port.toNat else none
  host := u.part .host
  path := u.part .path
  query := u.part .query

/-- Where the components stand. -/
def layoutOf (a : Authority) (t : Target) : Net.HttpParserUrl where
  port := a.port.map portValue
  host := some (7 + a.hostOffset, a.host.length)
  path := if t.path = [] then none else some (7 + a.text.length, t.path.length)
  query :=
    if t.queryText = [] then none
    else some (7 + a.text.length + t.path.length + 1, t.queryText.length)

def Location.layout (l : Location) : Net.HttpParserUrl := layoutOf l.authority l.target

/-! ## The second pass -/

section SecondPass

variable {fieldData : UrlField → FieldData} {server : Bytes} {t : Target} {u : Url}

/-- `u` with `field_data[UF_HOST].len = 0`. -/
def Url.clearHost (u : Url) : Url :=
  { u with
    fieldData := fun g => if g = .host then { u.fieldData .host with len := 0 } else u.fieldData g }

theorem Url.part_clearHost (u : Url) {f : UrlField} (hf : f ≠ .host) :
    u.clearHost.part f = u.part f := by
  simp [part, clearHost, hf]

/-- What is made of the loop's result. -/
def hostResult (r : Option (Url × HostState)) : Option Url :=
  r.bind fun r => if r.2.final then some r.1 else none

theorem parseHost_eq (buf : Bytes) (u : Url) (foundAt : Bool) :
    parseHost buf u foundAt =
      (hostLoop buf u.clearHost (hostStartState foundAt) (u.fieldData .host).off.toNat
        (u.fieldData .host).len.toNat).map hostResult := by
  change Except.bind (hostLoop buf u.clearHost (hostStartState foundAt)
    (u.fieldData .host).off.toNat (u.fieldData .host).len.toNat) _ = _
  cases hostLoop buf u.clearHost (hostStartState foundAt) (u.fieldData .host).off.toNat
      (u.fieldData .host).len.toNat with
  | error e => rfl
  | ok r => cases r <;> rfl

/-- The second pass over a server. -/
theorem parseHost_server (h : FirstPass fieldData server t u) (hne : server ≠ [])
    (hlt : server.length < 2 ^ 16) (behind : Bytes) (foundAt : Bool) :
    parseHost (scheme ++ server ++ behind) u foundAt =
      .ok (if (hostStartState foundAt).Takes server then
        some (hostFields u.clearHost (hostStartState foundAt) 7 server) else none) := by
  have hdata : u.fieldData .host = ⟨(7 : Nat).toUInt16, server.length.toUInt16⟩ := by
    rw [h.hostData, if_neg hne]
  have hlen : (server.length.toUInt16).toNat = server.length := by
    simpa using hlt
  have hstart : hostStartState foundAt ≠ .dead := by
    cases foundAt <;> decide
  -- the second pass runs over the part of the host, from its offset on
  have hloop := hostLoop_eq (u := u.clearHost) hstart scheme server behind
  rw [parseHost_eq, hdata, hlen]
  change Except.map hostResult (hostLoop _ _ _ scheme.length _) = _
  rw [hloop]
  -- it refuses a dead state in the loop, and a state that is not final behind it
  by_cases hdead : server.foldl parseHostChar (hostStartState foundAt) = .dead
  · have hnot : ¬(hostStartState foundAt).Takes server := fun hbad => hbad.1 hdead
    rw [if_pos hdead, if_neg hnot]
    rfl
  · have hiff : (hostStartState foundAt).Takes server ↔
        (server.foldl parseHostChar (hostStartState foundAt)).final = true := and_iff_right hdead
    simp only [if_neg hdead, hiff]
    rfl

/-! ## The port -/

theorem strtoul_digits {digits : Bytes} (hdigits : ∀ c ∈ digits, isNum c = true) {c : UInt8}
    (hc : isNum c = false) (rest : Bytes) : strtoul (digits ++ c :: rest) = .ok (portValue digits) := by
  have htake : (digits ++ c :: rest).takeWhile isNum = digits := by
    rw [List.takeWhile_append_of_pos hdigits, List.takeWhile_cons_of_neg (by simp [hc]),
      List.append_nil]
  rw [strtoul, if_neg (by simp [hc]), htake, portValue]

/-- The port of an authority, as it is converted. -/
theorem convertPort_authority (a : Authority) {u u' : Url} (hport : u.fieldSet .port = false)
    (h : PortFields a.port (7 + a.portOffset) u u') (hlt : 7 + a.text.length < 2 ^ 16)
    {c : UInt8} (hc : isNum c = false) (behind : Bytes) :
    ∃ r, convertPort (scheme ++ a.text ++ c :: behind) u' = .ok r ∧
      (¬a.PortFits → r = none) ∧
      (a.PortFits → ∃ u'', r = some u'' ∧ (∀ f, u''.part f = u'.part f) ∧
        u''.report.port = a.port.map portValue) := by
  cases hp : a.port with
  | none =>
    -- without a port nothing is converted
    have hset : u'.fieldSet .port = false := by
      rw [hp] at h
      exact Eq.trans h hport
    have hfits : a.PortFits := fun digits hd => by rw [hp] at hd; cases hd
    refine ⟨some u', by simp [convertPort, hset], fun hbad => absurd hfits hbad, fun _ =>
      ⟨u', rfl, fun _ => rfl, by simp [Url.report, hset]⟩⟩
  | some digits =>
    rw [hp] at h
    obtain ⟨hset, hoff⟩ := h
    obtain ⟨front, htext, hfront⟩ := a.exists_front hp
    obtain ⟨-, hdigits⟩ := a.port_ok digits hp
    have hle : front.length ≤ a.text.length := by
      rw [htext, List.length_append]
      omega
    have hoffset : ((u'.fieldData .port).off).toNat = (scheme ++ front).length := by
      rw [hoff, List.length_append, length_scheme, hfront]
      rw [hfront] at hle
      simpa using (Nat.add_le_add_left hle 7).trans_lt hlt
    -- `strtoul` reads the digits up to the character behind the authority
    have hdrop : (scheme ++ a.text ++ c :: behind).drop (u'.fieldData .port).off.toNat =
        digits ++ c :: behind := by
      rw [hoffset, htext, ← List.append_assoc, List.append_assoc, List.drop_left]
    have hvalue : convertPort (scheme ++ a.text ++ c :: behind) u' =
        .ok (if portValue digits > 0xffff then none
          else some { u' with port := (portValue digits).toUInt16 }) := by
      rw [convertPort, if_pos hset, hdrop, strtoul_digits hdigits hc]
      rfl
    -- the port fits if its value is at most 0xffff
    have hfits : a.PortFits ↔ portValue digits ≤ 65535 := by
      rw [Authority.PortFits, hp]
      simp
    refine ⟨_, hvalue, fun hbad => if_pos ?_, fun hgood => ⟨_, if_neg ?_, fun _ => rfl, ?_⟩⟩
    · rw [hfits] at hbad
      omega
    · rw [hfits] at hgood
      omega
    · have hlt16 : portValue digits < 65536 := by
        rw [hfits] at hgood
        omega
      simp [Url.report, hset, hlt16]

end SecondPass

/-! ## Answers -/

section Answers

variable (fieldData : UrlField → FieldData)

/-- A text that the first loop refuses. -/
theorem parseUrl_dead {buf rest : Bytes}
    (h : rest.foldl parseUrlChar .reqServerStart = .dead) :
    parseUrl fieldData (scheme ++ rest ++ buf) (scheme ++ rest).length false = .ok none := by
  have hstart : scheme.foldl parseUrlChar .reqSpacesBeforeUrl = .reqServerStart := by decide
  have hdead : (scheme ++ rest).foldl parseUrlChar .reqSpacesBeforeUrl = .dead := by
    rw [List.foldl_append, hstart, h]
  have hloop : urlLoop ⟨fun _ => false, 0, fieldData⟩ .reqSpacesBeforeUrl none false 0
      (scheme ++ rest) = none := by
    rw [urlLoop_eq (by decide), if_pos hdead]
  rw [parseUrl, List.take_left]
  simp only [Bool.false_eq_true, if_false, hloop]

/-- A server and a target behind the scheme. -/
theorem parseUrl_server {server : Bytes} (hserver : ∀ c ∈ server, isServerChar c = true ∨ c = code '@')
    (halive : server.foldl parseUrlChar .reqServerStart ≠ .dead) (t : Target)
    (hlt : 7 + (server ++ t.text).length < 2 ^ 16) (behind : Bytes) :
    ∃ u foundAt, FirstPass fieldData server t u ∧ (foundAt = true ↔ code '@' ∈ server) ∧
      parseUrl fieldData (scheme ++ (server ++ t.text) ++ behind) (scheme ++ (server ++ t.text)).length
          false =
        (parseHost (scheme ++ (server ++ t.text) ++ behind) u foundAt >>= fun r =>
          match r with
          | none => .ok none
          | some u => convertPort (scheme ++ (server ++ t.text) ++ behind) u) := by
  obtain ⟨u, foundAt, hloop, hpass, hat⟩ := urlLoop_http fieldData hserver halive t hlt
  refine ⟨u, foundAt, hpass, hat, ?_⟩
  have hcheck : checkHost (scheme ++ (server ++ t.text) ++ behind) u foundAt =
      parseHost (scheme ++ (server ++ t.text) ++ behind) u foundAt := if_pos (.inl hpass.schema)
  rw [← hcheck, parseUrl, List.take_left]
  simp only [Bool.false_eq_true, if_false]
  rw [hloop]
  refine bind_congr fun r => ?_
  cases r with
  | none => rfl
  | some u =>
    -- the url is not that of a CONNECT request, whose fields are looked at once more
    exact if_neg fun hconnect => hconnect.1

/-- The array `url` of `parser_url`, which is cleared before the url is put together. -/
def urlArray (url : Bytes) : Bytes := url ++ List.replicate (Net.maxPathSize - url.length) 0

/-- `http_parser_parse_url` as `parser_url` calls it, with a record that is not initialised. -/
def urlParser : Net.ParseUrl := fun url =>
  (parseUrl fieldData (urlArray url) url.length false).map (Option.map Url.report)

variable {fieldData}

/-- The fields of the record are wide enough for a url that fits. -/
theorem fits_fields {rest : Bytes} (h : (scheme ++ rest).length < Net.maxPathSize) :
    7 + rest.length < 2 ^ 16 := by
  have hmax : Net.maxPathSize < 2 ^ 16 := by decide
  rw [List.length_append, length_scheme] at h
  exact h.trans hmax

/-- Behind the url the array holds a NUL. -/
theorem urlArray_eq {url : Bytes} (h : url.length < Net.maxPathSize) :
    ∃ behind, urlArray url = url ++ 0 :: behind := by
  obtain ⟨k, hk⟩ : ∃ k, Net.maxPathSize - url.length = k + 1 := ⟨_, (Nat.succ_pred (by omega)).symm⟩
  exact ⟨List.replicate k 0, by rw [urlArray, hk]; rfl⟩

theorem length_urlArray {url : Bytes} (h : url.length < Net.maxPathSize) :
    (urlArray url).length = Net.maxPathSize := by
  rw [urlArray, List.length_append, List.length_replicate]
  omega

theorem getLast?_urlArray {url : Bytes} (h : url.length < Net.maxPathSize) :
    (urlArray url).getLast? = some 0 := by
  have hlast : (List.replicate (Net.maxPathSize - url.length) (0 : UInt8)).getLast? = some 0 := by
    rw [List.getLast?_replicate, if_neg (by omega)]
  rw [urlArray, List.getLast?_append, hlast]
  rfl

/-- An authority and a target are answered with the components, if the port fits. -/
theorem urlParser_authority (a : Authority) (t : Target)
    (hlt : (scheme ++ (a.text ++ t.text)).length < Net.maxPathSize) :
    (a.PortFits → urlParser fieldData (scheme ++ (a.text ++ t.text)) = .ok (some (layoutOf a t))) ∧
      (¬a.PortFits → urlParser fieldData (scheme ++ (a.text ++ t.text)) = .ok none) := by
  obtain ⟨behind, harray⟩ := urlArray_eq hlt
  obtain ⟨hchars, halive, hmem⟩ := a.server_text
  have hwide := fits_fields hlt
  obtain ⟨u, foundAt, hpass, hat, hparse⟩ := parseUrl_server fieldData hchars halive t hwide
    (0 :: behind)
  have hfound : foundAt = a.userinfo.isSome := by
    rw [Bool.eq_iff_iff, hat, hmem]
  rw [List.length_append] at hwide
  have htext : a.text.length < 2 ^ 16 := by omega
  -- the second pass takes the authority
  have hsplit : scheme ++ (a.text ++ t.text) ++ 0 :: behind =
      scheme ++ a.text ++ (t.text ++ 0 :: behind) := by simp
  have htakes : (hostStartState foundAt).Takes a.text :=
    (takes_authority_iff foundAt a.text).mpr ⟨a, rfl, hfound.symm⟩
  have hhost := parseHost_server hpass a.text_ne_nil htext (t.text ++ 0 :: behind) foundAt
  rw [if_pos htakes] at hhost
  rw [hsplit, hhost] at hparse
  obtain ⟨hdata, hportFields⟩ := hostFields_authority (u := u.clearHost) (p := 7) a rfl
  rw [← hfound] at hdata hportFields
  -- behind the authority there is no digit
  obtain ⟨c, rest, hrest, hc⟩ : ∃ c rest, t.text ++ 0 :: behind = c :: rest ∧ isNum c = false := by
    cases htarget : t.text with
    | nil => exact ⟨0, behind, rfl, by decide⟩
    | cons c rest =>
      refine ⟨c, rest ++ 0 :: behind, rfl, ?_⟩
      obtain rfl | rfl := t.head_text c (by rw [htarget]; rfl) <;> decide
  rw [hrest] at hparse
  obtain ⟨r, hconvert, hnone, hsome⟩ := convertPort_authority a hpass.port hportFields
    (by omega) hc rest
  have hanswer : urlParser fieldData (scheme ++ (a.text ++ t.text)) = .ok (r.map Url.report) := by
    rw [urlParser, harray, hsplit, hrest, hparse]
    change Except.map _ (convertPort _ _) = _
    rw [hconvert]
    rfl
  rw [hanswer]
  refine ⟨fun hfits => ?_, fun hbad => by rw [hnone hbad]; rfl⟩
  obtain ⟨u', rfl, hpart, hport⟩ := hsome hfits
  have hkept (f : UrlField) (hf : f ≠ .host) (hf' : f ≠ .port) (hf'' : f ≠ .userinfo) :
      u'.part f = u.part f := by
    rw [hpart, (sameAt_hostFields a.text hf hf' hf'').part, u.part_clearHost hf]
  have hle := a.hostOffset_add_le
  have hhostPart : u'.part .host = some (7 + a.hostOffset, a.host.length) := by
    have hset : u.fieldSet .host = true := hpass.host.mpr a.text_ne_nil
    rw [hpart, Url.part, hostFields_fieldSet_host, hdata]
    change (if u.fieldSet .host then _ else _) = _
    rw [if_pos hset]
    simp only [Option.some.injEq, Prod.mk.injEq]
    have hsize : UInt16.size = 2 ^ 16 := rfl
    exact ⟨UInt16.toNat_ofNat_of_lt' (by omega), UInt16.toNat_ofNat_of_lt' (by omega)⟩
  simp only [Option.map_some, Url.report, layoutOf, Except.ok.injEq, Option.some.injEq,
    Net.HttpParserUrl.mk.injEq]
  exact ⟨hport, hhostPart, (hkept .path (by decide) (by decide) (by decide)).trans hpass.path,
    (hkept .query (by decide) (by decide) (by decide)).trans hpass.query⟩

/-- A url with a host is answered with its components, whatever the record held. -/
theorem urlParser_location (l : Location) (hlt : (scheme ++ l.text).length < Net.maxPathSize) :
    urlParser fieldData (scheme ++ l.text) = .ok (some l.layout) :=
  (urlParser_authority l.authority l.target hlt).1 l.port_fits

/-- A text in which the first loop gets as far as the server, cut behind it. -/
theorem exists_server {rest : Bytes} (halive : rest.foldl parseUrlChar .reqServerStart ≠ .dead) :
    ∃ server t, rest = server ++ Target.text t ∧
      (∀ c ∈ server, isServerChar c = true ∨ c = code '@') ∧
      server.foldl parseUrlChar .reqServerStart ≠ .dead := by
  let belongs : UInt8 → Bool := fun c => isServerChar c || c = code '@'
  have hchars : ∀ c ∈ rest.takeWhile belongs, isServerChar c = true ∨ c = code '@' := fun c hc => by
    simpa [belongs] using List.mem_takeWhile_imp hc
  have hsplit : rest.takeWhile belongs ++ rest.dropWhile belongs = rest :=
    List.takeWhile_append_dropWhile
  rw [← hsplit, List.foldl_append] at halive
  have hserver : (rest.takeWhile belongs).foldl parseUrlChar .reqServerStart ≠ .dead := fun hdead => by
    rw [hdead, foldl_parseUrlChar_dead] at halive
    exact halive rfl
  have hin := (stays_server rfl hchars hserver).2.1
  have hhead : ∀ c ∈ (rest.dropWhile belongs).head?, isServerChar c = false ∧ c ≠ code '@' := by
    intro c hc
    have hnot := List.head?_dropWhile_not belongs rest
    rw [Option.mem_def.mp hc] at hnot
    simpa [belongs] using hnot
  obtain ⟨t, ht⟩ := (alive_target_iff hin hhead).mp halive
  exact ⟨_, t, by rw [← ht, hsplit], hchars, hserver⟩

/-- **Any other text is refused**, whatever the record held. -/
theorem urlParser_refused {rest : Bytes} (hlt : (scheme ++ rest).length < Net.maxPathSize)
    (hlocation : ¬∃ l : Location, rest = l.text) (hhostless : ¬Hostless rest) :
    urlParser fieldData (scheme ++ rest) = .ok none := by
  by_cases hdead : rest.foldl parseUrlChar .reqServerStart = .dead
  · rw [urlParser, urlArray, parseUrl_dead fieldData hdead]
    rfl
  obtain ⟨server, t, rfl, hchars, halive⟩ := exists_server hdead
  -- a target without a server is a url without a host
  by_cases hnil : server = []
  · exact absurd ⟨t, by rw [hnil]; rfl⟩ hhostless
  obtain ⟨behind, harray⟩ := urlArray_eq hlt
  have hwide := fits_fields hlt
  obtain ⟨u, foundAt, hpass, -, hparse⟩ := parseUrl_server fieldData hchars halive t hwide
    (0 :: behind)
  by_cases htakes : (hostStartState foundAt).Takes server
  -- an authority whose port does not fit
  · obtain ⟨a, rfl, -⟩ := (takes_authority_iff foundAt server).mp htakes
    refine (urlParser_authority a t hlt).2 fun hfits => hlocation ⟨⟨a, t, hfits⟩, rfl⟩
  -- the server is no authority, and the second pass refuses it
  · have hserver : server.length < 2 ^ 16 := by
      rw [List.length_append] at hwide
      omega
    have hhost := parseHost_server hpass hnil hserver (t.text ++ 0 :: behind) foundAt
    have hsplit : scheme ++ (server ++ t.text) ++ 0 :: behind =
        scheme ++ server ++ (t.text ++ 0 :: behind) := by simp
    rw [if_neg htakes] at hhost
    rw [urlParser, harray, hparse, hsplit, hhost]
    rfl

/-! ## Urls without a host -/

/-- The memory that a url without a host makes the second loop read lies inside the array. -/
def HostInside (fieldData : UrlField → FieldData) : Prop :=
  (fieldData .host).len = 0 ∨ (fieldData .host).off.toNat < Net.maxPathSize

/-- Without a host the second loop runs over what stood in the record. -/
theorem urlParser_hostless (t : Target) (hlt : (scheme ++ t.text).length < Net.maxPathSize) :
    ∃ u, FirstPass fieldData [] t u ∧
      urlParser fieldData (scheme ++ t.text) =
        ((hostLoop (urlArray (scheme ++ t.text)) u.clearHost .hostStart
          (fieldData .host).off.toNat (fieldData .host).len.toNat).map hostResult >>= fun r =>
          match r with
          | none => .ok none
          | some u => convertPort (urlArray (scheme ++ t.text)) u).map (Option.map Url.report) := by
  obtain ⟨behind, harray⟩ := urlArray_eq hlt
  obtain ⟨u, foundAt, hpass, hat, hparse⟩ := @parseUrl_server fieldData [] (by simp)
    (by decide) t (fits_fields hlt) (0 :: behind)
  have hfound : foundAt = false := by simpa using hat
  have hdata : u.fieldData .host = fieldData .host := hpass.hostData
  rw [List.nil_append, parseHost_eq, hfound, hdata] at hparse
  exact ⟨u, hpass, by rw [urlParser, harray, hparse]; rfl⟩

/-- If the record holds an empty host, the url is refused. -/
theorem urlParser_hostless_empty (t : Target)
    (hlt : (scheme ++ t.text).length < Net.maxPathSize) (hlen : (fieldData .host).len = 0) :
    urlParser fieldData (scheme ++ t.text) = .ok none := by
  obtain ⟨u, -, hparse⟩ := @urlParser_hostless fieldData t hlt
  rw [hparse, hlen]
  rfl

/-- If it holds one outside the array, the access is out of bounds. -/
theorem urlParser_hostless_outside (t : Target)
    (hlt : (scheme ++ t.text).length < Net.maxPathSize) (hinside : ¬HostInside fieldData) :
    urlParser fieldData (scheme ++ t.text) = .error .outOfBounds := by
  obtain ⟨u, -, hparse⟩ := @urlParser_hostless fieldData t hlt
  obtain ⟨hlen, hoff⟩ := not_or.mp hinside
  obtain ⟨n, hn⟩ : ∃ n, (fieldData .host).len.toNat = n + 1 :=
    ⟨_, (Nat.succ_pred fun hzero => hlen (UInt16.toNat_inj.mp hzero)).symm⟩
  have hget : (urlArray (scheme ++ t.text))[(fieldData .host).off.toNat]? = none :=
    List.getElem?_eq_none (by rw [length_urlArray hlt]; omega)
  rw [hparse, hn, hostLoop, hget]
  rfl

/-- A port in front of the NUL at the end is converted. -/
theorem convertPort_returns {buf : Bytes} (hend : buf.getLast? = some 0) {u : Url}
    (hport : u.PortBefore buf.length) :
    ∃ r, convertPort buf u = .ok r ∧ ∀ u' ∈ r, ∀ f, u'.part f = u.part f := by
  by_cases hset : u.fieldSet .port = true
  · have hmem : 0 ∈ buf.drop (u.fieldData .port).off.toNat := by
      have hlt := hport hset
      have hlast : (buf.drop (u.fieldData .port).off.toNat).getLast? = some 0 := by
        rw [List.getLast?_drop, if_neg (by omega), hend]
      exact List.mem_of_getLast? hlast
    have hall : ¬(buf.drop (u.fieldData .port).off.toNat).all isNum = true := fun hall =>
      absurd (List.all_eq_true.mp hall 0 hmem) (by decide)
    rw [convertPort, if_pos hset, strtoul, if_neg hall]
    refine ⟨_, rfl, fun u' hu' f => ?_⟩
    split_ifs at hu'
    · cases hu'
    · obtain rfl := Option.some.inj hu'
      rfl
  · exact ⟨some u, by rw [convertPort, if_neg hset], fun u' hu' f => by rw [Option.some.inj hu']⟩

/-- Otherwise the url is refused, or answered without a host. -/
theorem urlParser_hostless_inside (t : Target)
    (hlt : (scheme ++ t.text).length < Net.maxPathSize) (hinside : HostInside fieldData) :
    ∃ r, urlParser fieldData (scheme ++ t.text) = .ok r ∧ ∀ u ∈ r, u.host = none ∧
      u.path = (if t.path = [] then none else some (7, t.path.length)) ∧
      u.query =
        if t.queryText = [] then none else some (7 + t.path.length + 1, t.queryText.length) := by
  obtain ⟨u, hpass, hparse⟩ := @urlParser_hostless fieldData t hlt
  obtain hlen | hoff := hinside
  · exact ⟨none, urlParser_hostless_empty t hlt hlen, fun u hu => nomatch hu⟩
  -- the second pass stays inside the array, and reads whatever stands there
  have hend := getLast?_urlArray hlt
  obtain ⟨r, hloop⟩ := hostLoop_returns (u := u.clearHost) (s := .hostStart)
    (n := (fieldData .host).len.toNat) hend (.inl (by rw [length_urlArray hlt]; exact hoff))
  rw [hloop] at hparse
  cases hr : hostResult r with
  | none =>
    refine ⟨none, ?_, fun u hu => nomatch hu⟩
    rw [hparse, Except.map, hr]
    rfl
  | some u₁ =>
    obtain ⟨⟨u₂, s⟩, rfl, hresult⟩ := Option.bind_eq_some_iff.mp hr
    obtain rfl : u₂ = u₁ := by
      dsimp only at hresult
      split_ifs at hresult
      exact Option.some.inj hresult
    -- it leaves path and query as the first pass has set them
    have hkeeps := hostLoop_keeps hloop
    obtain ⟨r, hconvert, hparts⟩ := convertPort_returns hend (hkeeps.port fun hset => by
      have hclear : u.clearHost.fieldSet .port = false := hpass.port
      rw [hclear] at hset
      cases hset)
    refine ⟨r.map Url.report, ?_, fun v hv => ?_⟩
    · rw [hparse, Except.map, hr]
      change Except.map _ (convertPort _ _) = _
      rw [hconvert]
      rfl
    · obtain ⟨u₃, hu₃, rfl⟩ := Option.map_eq_some_iff.mp hv
      have hpart := hparts u₃ hu₃
      have hkept (f : UrlField) (hf : f ≠ .host) (hf' : f ≠ .port) (hf'' : f ≠ .userinfo) :
          u₃.part f = u.part f := by
        rw [hpart, (hkeeps.same f hf hf' hf'').part, u.part_clearHost hf]
      refine ⟨?_, ?_, ?_⟩
      -- and it does not set the bit of the host
      · have hset : u.fieldSet .host = false := by
          simpa using (not_congr hpass.host).mpr (not_not.mpr rfl)
        change u₃.part .host = none
        rw [hpart, Url.part, hkeeps.host]
        exact if_neg (by rw [show u.clearHost.fieldSet .host = u.fieldSet .host from rfl, hset]; simp)
      · exact (hkept .path (by decide) (by decide) (by decide)).trans hpass.path
      · exact (hkept .query (by decide) (by decide) (by decide)).trans hpass.query

/-! ## What `parser_url` relies on -/

theorem Target.path_length_le (t : Target) : t.path.length ≤ t.text.length := by simp [text]

/-- A path with what follows it is no longer than the target. -/
theorem Target.length_le (t : Target) (h : t.queryText ≠ []) :
    t.path.length + 1 + t.queryText.length ≤ t.text.length := by
  obtain ⟨q, hq⟩ : ∃ q, t.query = some q := by
    cases hquery : t.query with
    | none => exact absurd (by rw [queryText, hquery]; rfl) h
    | some q => exact ⟨q, rfl⟩
  simp only [queryText, text, tailText, hq, Option.getD_some, Option.map_some, List.length_append,
    List.length_cons]
  omega

/-- **The parts that are reported lie inside the url**, whatever the record held. -/
theorem reportsInside_urlParser : Net.ReportsInside (urlParser fieldData) := by
  rintro url u ⟨⟨rest, rfl⟩, hlt⟩ hanswer part hpart
  change (scheme ++ rest).length < _ at hlt
  change urlParser fieldData (scheme ++ rest) = _ at hanswer
  change _ ≤ (scheme ++ rest).length
  rw [List.length_append, length_scheme]
  -- the url of a location, a url without a host, or a refused one
  by_cases hlocation : ∃ l : Location, rest = l.text
  · obtain ⟨l, rfl⟩ := hlocation
    rw [urlParser_location l hlt] at hanswer
    obtain rfl : l.layout = u := Option.some.inj (Except.ok.inj hanswer)
    have hhost := l.authority.hostOffset_add_le
    have hlen : l.text.length = l.authority.text.length + l.target.text.length := List.length_append
    obtain hpart | hpart | hpart := hpart
    · obtain rfl := Option.some.inj hpart
      dsimp only
      omega
    · have hpath := l.target.path_length_le
      simp only [Location.layout, layoutOf] at hpart
      split_ifs at hpart
      obtain rfl := Option.some.inj hpart
      dsimp only
      omega
    · simp only [Location.layout, layoutOf] at hpart
      split_ifs at hpart with hquery
      have hle := l.target.length_le hquery
      obtain rfl := Option.some.inj hpart
      dsimp only
      omega
  by_cases hhostless : Hostless rest
  · obtain ⟨t, rfl⟩ := hhostless
    -- without a host the parts are those of the target
    by_cases hinside : HostInside fieldData
    · obtain ⟨r, hr, hfields⟩ := urlParser_hostless_inside t hlt hinside
      rw [hr] at hanswer
      obtain ⟨hhost, hpath, hquery⟩ := hfields u (Except.ok.inj hanswer)
      rw [hhost, hpath, hquery] at hpart
      obtain hpart | hpart | hpart := hpart
      · cases hpart
      · have hle := t.path_length_le
        split_ifs at hpart
        obtain rfl := Option.some.inj hpart
        dsimp only
        omega
      · split_ifs at hpart with hnil
        have hle := t.length_le hnil
        obtain rfl := Option.some.inj hpart
        dsimp only
        omega
    · rw [urlParser_hostless_outside t hlt hinside] at hanswer
      cases hanswer
  · rw [urlParser_refused hlt hlocation hhostless] at hanswer
    cases hanswer

/-- A url is answered unless it has no host and the record held one outside the array. -/
theorem answers_urlParser_iff {rest : Bytes} (hlt : (scheme ++ rest).length < Net.maxPathSize) :
    Net.Answers (urlParser fieldData) (scheme ++ rest) ↔ (Hostless rest → HostInside fieldData) := by
  constructor
  · rintro ⟨r, hr⟩ ⟨t, rfl⟩
    by_contra hinside
    rw [urlParser_hostless_outside t hlt hinside] at hr
    cases hr
  · intro hinside
    by_cases hlocation : ∃ l : Location, rest = l.text
    · obtain ⟨l, rfl⟩ := hlocation
      exact ⟨_, urlParser_location l hlt⟩
    by_cases hhostless : Hostless rest
    · obtain ⟨t, rfl⟩ := hhostless
      obtain ⟨r, hr, -⟩ := urlParser_hostless_inside t hlt (hinside ⟨t, rfl⟩)
      exact ⟨r, hr⟩
    · exact ⟨_, urlParser_refused hlt hlocation hhostless⟩

/-- With a record that held no host outside the array, every url is answered. -/
theorem partsInside_urlParser (h : HostInside fieldData) : Net.PartsInside (urlParser fieldData) where
  answers := by
    rintro url ⟨⟨rest, rfl⟩, hlt⟩
    exact (answers_urlParser_iff hlt).mpr fun _ => h
  inside := reportsInside_urlParser

end Answers

/-! ## The components of a url -/

/-- A text that begins like a server is no url without a host. -/
theorem not_hostless_of_head {c : UInt8} (hc : isServerChar c = true ∨ c = code '@') (cs : Bytes) :
    ¬Hostless (c :: cs) := by
  rintro ⟨t, ht⟩
  have hhead : c ∈ t.text.head? := by
    rw [← ht]
    rfl
  obtain ⟨hserver, hat⟩ := not_server_of_head (t.head_text c hhead)
  obtain hc | hc := hc
  · rw [hserver] at hc
    cases hc
  · exact hat hc

namespace Location

variable (l : Location)

theorem path_length_le : l.target.path.length ≤ l.text.length := by
  rw [text, List.length_append]
  exact Nat.le_add_left_of_le l.target.path_length_le

theorem urlPart_host :
    Net.urlPart (scheme ++ l.text) (7 + l.authority.hostOffset, l.authority.host.length) =
      l.authority.host := by
  have htext : scheme ++ l.text = scheme ++ (userinfoText l.authority.userinfo ++
      if l.authority.bracketed then [code '['] else []) ++ l.authority.host ++
      ((if l.authority.bracketed then [code ']'] else []) ++ portText l.authority.port ++
        l.target.text) := by
    simp only [text, Authority.text, hostText, List.append_assoc]
  have hlen : 7 + l.authority.hostOffset = (scheme ++ (userinfoText l.authority.userinfo ++
      if l.authority.bracketed then [code '['] else [])).length := by
    rw [List.length_append, List.length_append, length_scheme, Authority.hostOffset]
    split <;> rfl
  rw [htext, hlen]
  exact Net.urlPart_append ..

theorem urlPart_path :
    Net.urlPart (scheme ++ l.text) (7 + l.authority.text.length, l.target.path.length) =
      l.target.path := by
  have htext : scheme ++ l.text =
      scheme ++ l.authority.text ++ l.target.path ++ tailText l.target.query l.target.fragment := by
    simp only [text, Target.text, List.append_assoc]
  have hlen : 7 + l.authority.text.length = (scheme ++ l.authority.text).length := by
    rw [List.length_append]
    rfl
  rw [htext, hlen]
  exact Net.urlPart_append ..

theorem urlPart_query (h : l.target.queryText ≠ []) :
    Net.urlPart (scheme ++ l.text)
        (7 + l.authority.text.length + l.target.path.length + 1, l.target.queryText.length) =
      l.target.queryText := by
  cases hquery : l.target.query with
  | none => exact absurd (by rw [Target.queryText, hquery]; rfl) h
  | some q =>
    have htext : scheme ++ l.text = scheme ++ l.authority.text ++ l.target.path ++ [code '?'] ++
        l.target.queryText ++ fragmentText l.target.fragment := by
      simp [text, Target.text, tailText, Target.queryText, hquery]
    have hlen : 7 + l.authority.text.length + l.target.path.length + 1 =
        (scheme ++ l.authority.text ++ l.target.path ++ [code '?']).length := by
      simp only [List.length_append, List.length_singleton]
      rfl
    rw [htext, hlen]
    exact Net.urlPart_append ..

end Location

end Sails.HttpParser

/-! ## The call for a message -/

namespace Sails.Net

open CMemory
open Sails.HttpParser (UrlField FieldData Location Hostless HostInside scheme urlParser
  answers_urlParser_iff reportsInside_urlParser urlParser_location urlParser_refused)

/-- What stands behind the scheme in the url that `parser_url` puts together. -/
def HttpMessage.location (m : HttpMessage) : Bytes := m.hostValue ++ m.requestUrl.str

theorem HttpMessage.urlText_eq (m : HttpMessage) : m.urlText = scheme ++ m.location :=
  List.append_assoc ..

theorem HttpMessage.UrlFits.length_lt {m : HttpMessage} (h : m.UrlFits) :
    (scheme ++ m.location).length < maxPathSize := by
  rw [← m.urlText_eq]
  exact h.isHttpUrl.2

section Call

variable {msg : Message} {fieldData fieldData' : UrlField → FieldData}

/-- The call for a message returns unless its url has no host and the record held one outside the
array `url`. -/
theorem urlRead_urlParser_iff :
    UrlRead (urlParser fieldData) msg ↔
      (Hostless msg.received.location → HostInside fieldData) := by
  have hlt := msg.url_fits.length_lt
  constructor
  · intro hread
    exact (answers_urlParser_iff hlt).mp (msg.received.urlText_eq ▸ hread.answers)
  · intro hinside
    exact ⟨msg.received.urlText_eq ▸ (answers_urlParser_iff hlt).mpr hinside,
      reportsInside_urlParser⟩

/-- A message whose url has a host, or is refused, becomes the same record whatever the record of
the call held. -/
theorem completed_urlParser (hhost : ¬Hostless msg.received.location) :
    msg.completed (urlParser fieldData) = msg.completed (urlParser fieldData') := by
  refine Message.completed_congr ?_
  have hlt := msg.url_fits.length_lt
  rw [HttpMessage.urlText_eq]
  by_cases hlocation : ∃ l : Location, msg.received.location = l.text
  · obtain ⟨l, hl⟩ := hlocation
    rw [hl] at hlt ⊢
    rw [urlParser_location l hlt, urlParser_location l hlt]
  · rw [urlParser_refused hlt hlocation hhost, urlParser_refused hlt hlocation hhost]

end Call

end Sails.Net
