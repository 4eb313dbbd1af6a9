import Sails.Net.HttpParser.UrlGrammar

/-!
# The fields of a url

What the two loops of `http_parser_parse_url` put into the record, for the parts of a url.

- `urlFields`, `hostFields`: the fields the loops fill while their automata go on
- `Url.SameAt`: a field that has been left alone
- `urlFields_target`, `hostFields_authority`: the fields of the parts
-/

namespace Sails.HttpParser

open TransitionRun (Fault)
open CMemory

/-! ## Fields -/

section Fields

variable {u u' u'' : Url} {f g : UrlField}

/-- The field has been left alone. -/
def Url.SameAt (u u' : Url) (f : UrlField) : Prop :=
  u'.fieldSet f = u.fieldSet f ∧ u'.fieldData f = u.fieldData f

theorem Url.SameAt.refl (u : Url) (f : UrlField) : u.SameAt u f := ⟨rfl, rfl⟩

theorem Url.SameAt.trans (h : u.SameAt u' f) (h' : u'.SameAt u'' f) : u.SameAt u'' f :=
  ⟨h'.1.trans h.1, h'.2.trans h.2⟩

theorem sameAt_setField (u : Url) {d : FieldData} (h : g ≠ f) : u.SameAt (u.setField f d) g := by
  simp [Url.SameAt, Url.setField, h]

theorem sameAt_grow (u : Url) (h : g ≠ f) : u.SameAt (u.grow f) g := by
  simp [Url.SameAt, Url.grow, h]

/-- The length behind one more character. -/
theorem add_length (len : UInt16) (k : Nat) :
    len + 1 + k.toUInt16 = len + (k + 1).toUInt16 := by
  simp [UInt16.add_comm, UInt16.add_assoc]

theorem grow_setField (u : Url) (f : UrlField) (off len : UInt16) :
    (u.setField f ⟨off, len⟩).grow f = u.setField f ⟨off, len + 1⟩ := by
  simp only [Url.setField, Url.grow, if_pos, Url.mk.injEq, true_and]
  funext g
  split_ifs <;> rfl

end Fields

/-! ## The first loop -/

/-- The fields the loop of `http_parser_parse_url` fills, while the automaton goes on. -/
def urlFields (u : Url) (s : State) (oldUf : Option UrlField) (p : Nat) : Bytes → Url
  | [] => u
  | ch :: rest =>
    match (parseUrlChar s ch).urlField with
    | none => urlFields u (parseUrlChar s ch) oldUf (p + 1) rest
    | some uf =>
      if some uf = oldUf then urlFields (u.grow uf) (parseUrlChar s ch) oldUf (p + 1) rest
      else urlFields (u.setField uf ⟨p.toUInt16, 1⟩) (parseUrlChar s ch) (some uf) (p + 1) rest

/-- The automaton comes to `s_req_server_with_at`. -/
def meetsAt (s : State) : Bytes → Bool
  | [] => false
  | ch :: rest => parseUrlChar s ch = .reqServerWithAt || meetsAt (parseUrlChar s ch) rest

section FirstLoop

variable {u : Url} {s t : State} {oldUf : Option UrlField} {p : Nat} {uf f : UrlField}

theorem urlLoop_eq (hs : s ≠ .dead) (foundAt : Bool) (cs : Bytes) :
    urlLoop u s oldUf foundAt p cs =
      if cs.foldl parseUrlChar s = .dead then none
      else some (urlFields u s oldUf p cs, foundAt || meetsAt s cs) := by
  induction cs generalizing u s oldUf p foundAt with
  | nil => simp [urlLoop, urlFields, meetsAt, hs]
  | cons c cs ih =>
    rw [List.foldl_cons, urlLoop]
    by_cases hdead : parseUrlChar s c = .dead
    · rw [if_pos hdead, hdead, foldl_parseUrlChar_dead, if_pos rfl]
    · simp only [if_neg hdead, ih hdead, urlFields, meetsAt, Bool.or_assoc]
      cases (parseUrlChar s c).urlField with
      | none => rfl
      | some uf => dsimp only; split <;> rfl

/-- All states of the run belong to this field. -/
def Stays (uf : UrlField) (s : State) : Bytes → Prop
  | [] => True
  | c :: cs => (parseUrlChar s c).urlField = some uf ∧ Stays uf (parseUrlChar s c) cs

/-- A character that leads to a state and characters that do not leave it. -/
theorem stays_of_run (ok : UInt8 → Bool) {c : UInt8} {cs : Bytes} (hc : parseUrlChar s c = t)
    (ht : t.urlField = some uf) (hstays : ∀ d, ok d = true → parseUrlChar t d = t)
    (hcs : ∀ d ∈ cs, ok d = true) :
    Stays uf s (c :: cs) ∧ (c :: cs).foldl parseUrlChar s = t := by
  rw [Stays, List.foldl_cons, hc]
  refine ⟨⟨ht, ?_⟩, foldl_of_stays hstays hcs⟩
  induction cs with
  | nil => trivial
  | cons d cs ih =>
    rw [Stays, hstays d (hcs d (List.mem_cons_self ..))]
    exact ⟨ht, ih fun e he => hcs e (List.mem_cons_of_mem _ he)⟩

/-- A run inside a field lengthens it. -/
theorem urlFields_grow {cs : Bytes} (h : Stays uf s cs) (off len : UInt16) (rest : Bytes) :
    urlFields (u.setField uf ⟨off, len⟩) s (some uf) p (cs ++ rest) =
      urlFields (u.setField uf ⟨off, len + cs.length.toUInt16⟩) (cs.foldl parseUrlChar s) (some uf)
        (p + cs.length) rest := by
  induction cs generalizing s p len with
  | nil => simp
  | cons c cs ih =>
    have hlen : len + 1 + cs.length.toUInt16 = len + (c :: cs).length.toUInt16 :=
      add_length len cs.length
    rw [List.cons_append, urlFields, h.1]
    dsimp only
    rw [if_pos rfl, grow_setField, ih h.2, hlen, List.foldl_cons, List.length_cons]
    congr 1
    omega

/-- A run that enters a field sets it. -/
theorem urlFields_enter {cs : Bytes} (hne : cs ≠ []) (hold : some uf ≠ oldUf) (h : Stays uf s cs)
    (rest : Bytes) :
    urlFields u s oldUf p (cs ++ rest) =
      urlFields (u.setField uf ⟨p.toUInt16, cs.length.toUInt16⟩) (cs.foldl parseUrlChar s) (some uf)
        (p + cs.length) rest := by
  obtain ⟨c, cs, rfl⟩ := List.exists_cons_of_ne_nil hne
  have hlen : (1 : UInt16) + cs.length.toUInt16 = (c :: cs).length.toUInt16 := by
    simp [UInt16.add_comm]
  rw [List.cons_append, urlFields, h.1]
  dsimp only
  rw [if_neg hold, urlFields_grow h.2, hlen, List.foldl_cons, List.length_cons]
  congr 1
  omega

/-- Where the first character leads to states that never reach a field, it is left alone. -/
theorem sameAt_urlFields {outside : State → Bool}
    (hclosed : ∀ s c, outside s = true → outside (parseUrlChar s c) = true)
    (hfield : ∀ s, outside s = true → s.urlField ≠ some f) {cs : Bytes}
    (hfirst : ∀ c ∈ cs.head?, outside (parseUrlChar s c) = true) :
    u.SameAt (urlFields u s oldUf p cs) f := by
  induction cs generalizing u s oldUf p with
  | nil => exact .refl u f
  | cons c cs ih =>
    have hnext := hfirst c rfl
    have hrest (d : UInt8) (_ : d ∈ cs.head?) := hclosed _ d hnext
    rw [urlFields]
    cases huf : (parseUrlChar s c).urlField with
    | none => exact ih hrest
    | some uf =>
      have hne : f ≠ uf := by
        rintro rfl
        exact hfield _ hnext huf
      dsimp only
      split
      · exact (sameAt_grow u hne).trans (ih hrest)
      · exact (sameAt_setField u hne).trans (ih hrest)

/-- The states of the fragment, and the dead one. -/
def State.inFragment : State → Bool
  | reqFragmentStart | reqFragment | dead => true
  | _ => false

/-- The states from the path on, and the dead one. -/
def State.behindServer : State → Bool
  | reqPath | reqQueryStringStart | reqQueryString | reqFragmentStart | reqFragment | dead => true
  | _ => false

theorem inFragment_parseUrlChar (s : State) (c : UInt8) (hs : s.inFragment = true) :
    (parseUrlChar s c).inFragment = true := by
  revert c
  cases s <;> cases hs <;> exact forall_byte (by decide +kernel)

theorem behindServer_parseUrlChar (s : State) (c : UInt8) (hs : s.behindServer = true) :
    (parseUrlChar s c).behindServer = true := by
  revert c
  cases s <;> cases hs <;> exact forall_byte (by decide +kernel)

/-- A fragment fills no other field. -/
theorem sameAt_fragmentText (hhash : (parseUrlChar s (code '#')).inFragment = true)
    (hf : f ≠ .fragment) (fragment : Option Bytes) :
    u.SameAt (urlFields u s oldUf p (fragmentText fragment)) f := by
  refine sameAt_urlFields inFragment_parseUrlChar (fun s hs => ?_) fun c hc => ?_
  · cases s <;> cases hs <;> simp [State.urlField, hf.symm]
  · cases fragment with
    | none => cases hc
    | some t =>
      obtain rfl := Option.some.inj hc
      exact hhash

/-- Offset and length of a field whose bit is set. -/
def Url.part (u : Url) (f : UrlField) : Option (Nat × Nat) :=
  if u.fieldSet f then some ((u.fieldData f).off.toNat, (u.fieldData f).len.toNat) else none

theorem Url.SameAt.part {u u' : Url} (h : u.SameAt u' f) : u'.part f = u.part f := by
  rw [Url.part, Url.part, h.1, h.2]

theorem part_setField (u : Url) (f : UrlField) {off len : Nat} (hoff : off < 2 ^ 16)
    (hlen : len < 2 ^ 16) : (u.setField f ⟨off.toUInt16, len.toUInt16⟩).part f = some (off, len) := by
  simpa [Url.part, Url.setField] using And.intro hoff hlen

/-- A query and a fragment fill the field of the query, unless it is empty. -/
theorem urlFields_tail (hquery : parseUrlChar s (code '?') = .reqQueryStringStart)
    (hhash : (parseUrlChar s (code '#')).inFragment = true) (hold : some .query ≠ oldUf)
    (query fragment : Option Bytes) (hq : QueryOk query)
    (hlt : p + (tailText query fragment).length < 2 ^ 16) :
    (urlFields u s oldUf p (tailText query fragment)).part .query =
        (if query.getD [] = [] then u.part .query else some (p + 1, (query.getD []).length)) ∧
      ∀ f, f ≠ .query → f ≠ .fragment →
        u.SameAt (urlFields u s oldUf p (tailText query fragment)) f := by
  -- without a query a fragment may follow at once
  cases query with
  | none =>
    exact ⟨(sameAt_fragmentText hhash (by decide) fragment).part,
      fun f _ hf => sameAt_fragmentText hhash hf fragment⟩
  | some q =>
    have hstart : (parseUrlChar .reqQueryStringStart (code '#')).inFragment = true := by decide
    -- the question mark belongs to no field
    have hstep : urlFields u s oldUf p (tailText (some q) fragment) =
        urlFields u .reqQueryStringStart oldUf (p + 1) (q ++ fragmentText fragment) := by
      show urlFields u s oldUf p (code '?' :: (q ++ fragmentText fragment)) = _
      rw [urlFields, hquery]
      rfl
    rw [hstep, Option.getD_some]
    by_cases hnil : q = []
    -- an empty query is no field
    · rw [if_pos hnil, hnil, List.nil_append]
      exact ⟨(sameAt_fragmentText hstart (by decide) fragment).part,
        fun f _ hf => sameAt_fragmentText hstart hf fragment⟩
    · obtain ⟨hstays, hend⟩ : Stays .query .reqQueryStringStart q ∧
          q.foldl parseUrlChar .reqQueryStringStart = .reqQueryString := by
        obtain ⟨c, cs, rfl⟩ := List.exists_cons_of_ne_nil hnil
        have hok := hq _ rfl
        refine stays_of_run isQueryChar ?_ rfl (fun d hd => ?_) fun d hd =>
          hok d (List.mem_cons_of_mem _ hd)
        · rw [parseUrlChar_queryStart, parseUrlChar_query, if_pos (hok c (List.mem_cons_self ..))]
        · rw [parseUrlChar_query, if_pos hd]
      have hlen : (tailText (some q) fragment).length = q.length + 1 + (fragmentText fragment).length := by
        simp [tailText]
        omega
      have hquery : (parseUrlChar .reqQueryString (code '#')).inFragment = true := by decide
      -- any other is one run, and the fragment changes other fields only
      rw [if_neg hnil, urlFields_enter hnil hold hstays, hend]
      refine ⟨?_, fun f hf hf' => (sameAt_setField u hf).trans (sameAt_fragmentText hquery hf' fragment)⟩
      rw [(sameAt_fragmentText hquery (by decide) fragment).part]
      exact part_setField u .query (by omega) (by omega)

/-- **The fields of a target**: path and query, where they are not empty. -/
theorem urlFields_target (hs : s.inServer = true) (hpath : some .path ≠ oldUf)
    (hquery : some .query ≠ oldUf) (t : Target) (hlt : p + t.text.length < 2 ^ 16) :
    (urlFields u s oldUf p t.text).part .path =
        (if t.path = [] then u.part .path else some (p, t.path.length)) ∧
      (urlFields u s oldUf p t.text).part .query =
        (if t.queryText = [] then u.part .query
        else some (p + t.path.length + 1, t.queryText.length)) ∧
      ∀ f, f ≠ .path → f ≠ .query → f ≠ .fragment →
        u.SameAt (urlFields u s oldUf p t.text) f := by
  have hlen : t.text.length = t.path.length + (tailText t.query t.fragment).length :=
    List.length_append
  -- from the server's states a question mark and a number sign lead to the same states
  have hquestion : parseUrlChar s (code '?') = .reqQueryStringStart := by
    cases s <;> cases hs <;> decide
  have hhash : (parseUrlChar s (code '#')).inFragment = true := by
    cases s <;> cases hs <;> decide
  by_cases hnil : t.path = []
  · rw [Target.text, hnil, List.nil_append, if_pos rfl]
    -- without a path the tail follows the server at once
    obtain ⟨hpart, hsame⟩ := urlFields_tail (u := u) (p := p) hquestion hhash hquery t.query
      t.fragment t.query_ok (by omega)
    exact ⟨(hsame .path (by decide) (by decide)).part, hpart, fun f _ => hsame f⟩
  -- the path is one run, from its slash on
  · obtain ⟨hstays, hend⟩ : Stays .path s t.path ∧ t.path.foldl parseUrlChar s = .reqPath := by
      obtain ⟨c, cs, hcons⟩ := List.exists_cons_of_ne_nil hnil
      have hhead := t.path_slash.resolve_left hnil
      have hok := t.path_ok
      rw [hcons] at hhead hok ⊢
      obtain rfl := Option.some.inj hhead
      refine stays_of_run isUrlChar ?_ rfl (fun d hd => ?_) fun d hd =>
        hok d (List.mem_cons_of_mem _ hd)
      · cases s <;> cases hs <;> decide
      · rw [parseUrlChar_path, if_pos hd]
    rw [Target.text, if_neg hnil, urlFields_enter hnil hpath hstays, hend]
    -- the fields behind it begin anew
    have hold : some UrlField.query ≠ some .path := by decide
    obtain ⟨hpart, hsame⟩ := urlFields_tail (s := .reqPath)
      (u := u.setField .path ⟨p.toUInt16, t.path.length.toUInt16⟩) (p := p + t.path.length)
      (by decide) (by decide) hold t.query t.fragment t.query_ok (by omega)
    refine ⟨?_, ?_, fun f hf hf' hf'' => (sameAt_setField u hf).trans (hsame f hf' hf'')⟩
    · rw [(hsame .path (by decide) (by decide)).part]
      exact part_setField u .path (by omega) (by omega)
    · rw [hpart, (sameAt_setField u (by decide)).part]
      rfl

/-- The server's part of a url is one run of its field. -/
theorem stays_server (hs : s.inServer = true) {cs : Bytes}
    (hcs : ∀ c ∈ cs, isServerChar c = true ∨ c = code '@')
    (halive : cs.foldl parseUrlChar s ≠ .dead) :
    Stays .host s cs ∧ (cs.foldl parseUrlChar s).inServer = true ∧
      (meetsAt s cs = true ↔ code '@' ∈ cs) := by
  -- by induction on the server's characters: a second `@` in a row would kill the automaton
  induction cs generalizing s with
  | nil => simp [Stays, hs, meetsAt]
  | cons c cs ih =>
    obtain ⟨hc, hrest⟩ := List.forall_mem_cons.mp hcs
    rw [List.foldl_cons] at halive ⊢
    rw [Stays, meetsAt, Bool.or_eq_true, decide_eq_true_eq, List.mem_cons]
    have hnext := parseUrlChar_server hs c
    by_cases hserver : isServerChar c = true
    · have hne : code '@' ≠ c := by
        rintro rfl
        exact absurd hserver (by decide)
      rw [if_pos hserver] at hnext
      rw [hnext] at halive ⊢
      obtain ⟨hstays, hin, hmeets⟩ := ih rfl hrest halive
      exact ⟨⟨rfl, hstays⟩, hin, by simp [hne, hmeets]⟩
    · have hat : c = code '@' := hc.resolve_left hserver
      rw [if_neg hserver, if_pos hat] at hnext
      split_ifs at hnext with hs'
      · rw [hnext, foldl_parseUrlChar_dead] at halive
        exact absurd rfl halive
      · rw [hnext] at halive ⊢
        obtain ⟨hstays, hin, -⟩ := ih rfl hrest halive
        exact ⟨⟨rfl, hstays⟩, hin, by simp [hat]⟩

theorem meetsAt_append (s : State) (cs ds : Bytes) :
    meetsAt s (cs ++ ds) = (meetsAt s cs || meetsAt (cs.foldl parseUrlChar s) ds) := by
  induction cs generalizing s with
  | nil => rfl
  | cons c cs ih => rw [List.cons_append, meetsAt, meetsAt, ih, List.foldl_cons, Bool.or_assoc]

/-- A target begins behind the server. -/
theorem Target.head_text (t : Target) : ∀ c ∈ t.text.head?, c = code '/' ∨ c = code '?' := by
  obtain ⟨path, query, fragment, hslash, -, -, -, hbehind⟩ := t
  intro c hc
  cases path with
  | cons d path =>
    obtain rfl : d = c := Option.some.inj hc
    exact .inl (by simpa using hslash)
  | nil =>
    cases query with
    | some q => exact .inr (Option.some.inj hc).symm
    | none =>
      cases fragment with
      | none => cases hc
      | some f => simpa using hbehind rfl

theorem not_server_of_head {c : UInt8} (h : c = code '/' ∨ c = code '?') :
    isServerChar c = false ∧ c ≠ code '@' := by
  obtain rfl | rfl := h <;> decide

/-- From the path on there is no `@` of a user info. -/
theorem meetsAt_target (hs : s.inServer = true) (t : Target) : meetsAt s t.text = false := by
  have hfirst : ∀ c ∈ t.text.head?, (parseUrlChar s c).behindServer = true := by
    intro c hc
    obtain rfl | rfl := t.head_text c hc <;> cases s <;> cases hs <;> decide
  generalize t.text = cs at hfirst
  clear hs
  induction cs generalizing s with
  | nil => rfl
  | cons c cs ih =>
    have hnext := hfirst c rfl
    rw [meetsAt, ih fun d _ => behindServer_parseUrlChar _ d hnext, Bool.or_false, decide_eq_false_iff_not]
    intro hat
    rw [hat] at hnext
    cases hnext

/-- The text that a url to a server begins with. -/
def scheme : Bytes := ascii "http://"

theorem length_scheme : scheme.length = 7 := rfl

/-- The record behind the scheme and the server. -/
def serverUrl (fieldData : UrlField → FieldData) (server : Bytes) : Url :=
  let u : Url := ⟨fun _ => false, 0, fieldData⟩
  let u := u.setField .schema ⟨(0 : Nat).toUInt16, (4 : Nat).toUInt16⟩
  if server = [] then u else u.setField .host ⟨(7 : Nat).toUInt16, server.length.toUInt16⟩

/-- The scheme is a field of its own, and so is the server. -/
theorem urlFields_server (fieldData : UrlField → FieldData) {server : Bytes}
    (hstays : Stays .host .reqServerStart server) (rest : Bytes) :
    ∃ oldUf, some .path ≠ oldUf ∧ some .query ≠ oldUf ∧
      urlFields ⟨fun _ => false, 0, fieldData⟩ .reqSpacesBeforeUrl none 0 (scheme ++ (server ++ rest)) =
        urlFields (serverUrl fieldData server) (server.foldl parseUrlChar .reqServerStart) oldUf
          (7 + server.length) rest := by
  have hhttp : Stays .schema .reqSpacesBeforeUrl (ascii "http") := by
    refine (stays_of_run (t := .reqSchema) isAlpha (by decide) rfl ?_
      (forall_mem_of_all (by decide))).1
    exact forall_byte (by decide +kernel)
  have hsplit : scheme ++ (server ++ rest) = ascii "http" ++ (ascii "://" ++ (server ++ rest)) := rfl
  rw [hsplit, urlFields_enter (by decide) (by decide) hhttp]
  -- the slashes are no fields
  change ∃ oldUf, _ ∧ _ ∧ urlFields _ .reqServerStart (some .schema) 7 (server ++ rest) = _
  by_cases hnil : server = []
  · subst hnil
    exact ⟨some .schema, by decide, by decide, rfl⟩
  · refine ⟨some .host, by decide, by decide, ?_⟩
    rw [urlFields_enter hnil (by decide) hstays, serverUrl, if_neg hnil]
    rfl

/-- What the first loop leaves of `http://server/target`. -/
structure FirstPass (fieldData : UrlField → FieldData) (server : Bytes) (t : Target) (u : Url) :
    Prop where
  schema : u.fieldSet .schema = true
  host : u.fieldSet .host = true ↔ server ≠ []
  hostData : u.fieldData .host =
    if server = [] then fieldData .host else ⟨(7 : Nat).toUInt16, server.length.toUInt16⟩
  port : u.fieldSet .port = false
  path : u.part .path =
    if t.path = [] then none else some (7 + server.length, t.path.length)
  query : u.part .query =
    if t.queryText = [] then none
    else some (7 + server.length + t.path.length + 1, t.queryText.length)

/-- **The first loop** goes through the scheme, the server and the target. -/
theorem urlLoop_http (fieldData : UrlField → FieldData) {server : Bytes}
    (hserver : ∀ c ∈ server, isServerChar c = true ∨ c = code '@')
    (halive : server.foldl parseUrlChar .reqServerStart ≠ .dead) (t : Target)
    (hlt : 7 + (server ++ t.text).length < 2 ^ 16) :
    ∃ u foundAt, urlLoop ⟨fun _ => false, 0, fieldData⟩ .reqSpacesBeforeUrl none false 0
        (scheme ++ (server ++ t.text)) = some (u, foundAt) ∧
      FirstPass fieldData server t u ∧ (foundAt = true ↔ code '@' ∈ server) := by
  -- the server is one run, and the target begins behind it
  obtain ⟨hstays, hin, hat⟩ := stays_server rfl hserver halive
  have hstart : scheme.foldl parseUrlChar .reqSpacesBeforeUrl = .reqServerStart := by decide
  have hmeets : meetsAt .reqSpacesBeforeUrl scheme = false := by decide
  -- the whole url is alive, since its target is
  have htext : (scheme ++ (server ++ t.text)).foldl parseUrlChar .reqSpacesBeforeUrl ≠ .dead := by
    rw [List.foldl_append, hstart, List.foldl_append,
      alive_target_iff hin fun c hc => not_server_of_head (t.head_text c hc)]
    exact ⟨t, rfl⟩
  obtain ⟨oldUf, hpath, hquery, hfields⟩ := urlFields_server fieldData hstays t.text
  rw [List.length_append, ← Nat.add_assoc] at hlt
  rw [urlLoop_eq (by decide), if_neg htext, hfields]
  obtain ⟨hpart, hpart', hsame⟩ := urlFields_target (u := serverUrl fieldData server) hin hpath hquery
    t hlt
  refine ⟨_, _, rfl, ?_, ?_⟩
  -- with an empty server the field of the host is not set
  · by_cases hnil : server = []
    all_goals
      exact {
        schema := (hsame .schema (by decide) (by decide) (by decide)).1.trans (by
          simp [serverUrl, hnil, Url.setField])
        host := by
          rw [(hsame .host (by decide) (by decide) (by decide)).1]
          simp [serverUrl, hnil, Url.setField]
        hostData := (hsame .host (by decide) (by decide) (by decide)).2.trans (by
          simp [serverUrl, hnil, Url.setField])
        port := (hsame .port (by decide) (by decide) (by decide)).1.trans (by
          simp [serverUrl, hnil, Url.setField])
        path := hpart.trans (by simp [serverUrl, hnil, Url.setField, Url.part])
        query := hpart'.trans (by simp [serverUrl, hnil, Url.setField, Url.part]) }
  · rw [meetsAt_append, hmeets, hstart, meetsAt_append, meetsAt_target hin]
    simpa using hat

end FirstLoop

/-! ## The second loop -/

/-- The fields the loop of `http_parse_host` fills, while its automaton goes on. -/
def hostFields (u : Url) (s : HostState) (p : Nat) : Bytes → Url
  | [] => u
  | ch :: rest => hostFields (hostField u s (parseHostChar s ch) p) (parseHostChar s ch) (p + 1) rest

section SecondLoop

variable {u u' : Url} {s s' t : HostState} {p n : Nat} {f : UrlField} {buf : Bytes}

theorem hostLoop_eq (hs : s ≠ .dead) (before text behind : Bytes) :
    hostLoop (before ++ text ++ behind) u s before.length text.length =
      .ok (if text.foldl parseHostChar s = .dead then none
        else some (hostFields u s before.length text, text.foldl parseHostChar s)) := by
  induction text generalizing before u s with
  | nil => simp [hostLoop, hostFields, hs]
  | cons c text ih =>
    have hget : (before ++ c :: text ++ behind)[before.length]? = some c := by simp
    have hbuf : before ++ c :: text ++ behind = before ++ [c] ++ text ++ behind := by simp
    rw [List.length_cons, hostLoop, hget]
    dsimp only
    by_cases hdead : parseHostChar s c = .dead
    · rw [if_pos hdead, List.foldl_cons, hdead, foldl_parseHostChar_dead, if_pos rfl]
    · have hrest := ih (u := hostField u s (parseHostChar s c) before.length) hdead (before ++ [c])
      rw [List.length_append, List.length_singleton] at hrest
      rw [if_neg hdead, hbuf, hrest]
      rfl

/-- One character leaves the fields of the target alone. -/
theorem sameAt_hostField (u : Url) (s s' : HostState) (p : Nat) (hhost : f ≠ .host)
    (hport : f ≠ .port) (hinfo : f ≠ .userinfo) : u.SameAt (hostField u s s' p) f := by
  unfold hostField
  cases s' <;> dsimp only <;> (try split_ifs) <;>
    simp [Url.SameAt, Url.setField, Url.grow, hhost, hport, hinfo]

/-- The bit of the host is set by the first loop alone. -/
theorem hostField_host (u : Url) (s s' : HostState) (p : Nat) :
    (hostField u s s' p).fieldSet .host = u.fieldSet .host := by
  unfold hostField
  cases s' <;> dsimp only <;> (try split_ifs) <;> simp [Url.setField, Url.grow]

theorem sameAt_hostFields (cs : Bytes) (hhost : f ≠ .host) (hport : f ≠ .port)
    (hinfo : f ≠ .userinfo) : u.SameAt (hostFields u s p cs) f := by
  induction cs generalizing u s p with
  | nil => exact .refl u f
  | cons c cs ih => exact (sameAt_hostField u s _ p hhost hport hinfo).trans ih

theorem hostFields_fieldSet_host (cs : Bytes) :
    (hostFields u s p cs).fieldSet .host = u.fieldSet .host := by
  induction cs generalizing u s p with
  | nil => rfl
  | cons c cs ih => exact ih.trans (hostField_host ..)

/-- If there is a port, it begins in front of `n`. -/
def Url.PortBefore (u : Url) (n : Nat) : Prop :=
  u.fieldSet .port = true → (u.fieldData .port).off.toNat < n

theorem portBefore_hostField (hu : u.PortBefore n) (hp : p < n) (s s' : HostState) :
    (hostField u s s' p).PortBefore n := by
  unfold hostField
  have hmod : p % 65536 < n := (Nat.mod_le ..).trans_lt hp
  cases s' <;> dsimp only <;> (try split_ifs) <;>
    simp_all [Url.PortBefore, Url.setField, Url.grow]

/-- What the second loop keeps, whatever it reads. -/
structure SecondPass (u u' : Url) (n : Nat) : Prop where
  same : ∀ f, f ≠ .host → f ≠ .port → f ≠ .userinfo → u.SameAt u' f
  host : u'.fieldSet .host = u.fieldSet .host
  port : u.PortBefore n → u'.PortBefore n

theorem hostLoop_keeps (h : hostLoop buf u s p n = .ok (some (u', s'))) :
    SecondPass u u' buf.length := by
  -- by induction on the characters: each changes userinfo, host or port
  induction n generalizing u s p with
  | zero =>
    obtain ⟨rfl, rfl⟩ : u = u' ∧ s = s' := by simpa [hostLoop] using h
    exact ⟨fun f _ _ _ => .refl u f, rfl, id⟩
  | succ n ih =>
    rw [hostLoop] at h
    cases hget : buf[p]? with
    | none =>
      rw [hget] at h
      cases h
    | some c =>
      rw [hget] at h
      dsimp only at h
      split_ifs at h with hdead
      · cases h
      · have hp := (List.getElem?_eq_some_iff.mp hget).1
        have hrest := ih h
        exact ⟨fun f hf hf' hf'' => (sameAt_hostField u _ _ p hf hf' hf'').trans
          (hrest.same f hf hf' hf''), hrest.host.trans (hostField_host ..),
          fun hu => hrest.port (portBefore_hostField hu hp _ _)⟩

theorem parseHostChar_zero (s : HostState) : parseHostChar s 0 = .dead := by cases s <;> decide

/-- A NUL at the end of the memory stops the loop. -/
theorem hostLoop_returns (hend : buf.getLast? = some 0) (hp : p < buf.length ∨ n = 0) :
    ∃ r, hostLoop buf u s p n = .ok r := by
  induction n generalizing u s p with
  | zero => exact ⟨_, rfl⟩
  | succ n ih =>
    have hlt := hp.resolve_right (Nat.succ_ne_zero n)
    rw [hostLoop, List.getElem?_eq_getElem hlt]
    dsimp only
    split
    · exact ⟨_, rfl⟩
    · rename_i hdead
      refine ih (.inl ?_)
      by_contra hbad
      -- the last character is the NUL
      have hlast : p = buf.length - 1 := by omega
      rw [List.getLast?_eq_getElem?, ← hlast, List.getElem?_eq_getElem hlt] at hend
      rw [Option.some.inj hend, parseHostChar_zero] at hdead
      exact hdead rfl

/-- A user info fills its own field. -/
theorem hostFields_userinfo (hs : s = .userinfoStart ∨ s = .userinfo) {info : Bytes}
    (hinfo : ∀ c ∈ info, isUserinfoChar c = true) (rest : Bytes) :
    ∃ u', (∀ f, f ≠ .userinfo → u.SameAt u' f) ∧
      hostFields u s p (info ++ code '@' :: rest) =
        hostFields u' .hostStart (p + (info.length + 1)) rest := by
  -- by induction on the user information, up to its `@`
  induction info generalizing u s p with
  | nil =>
    refine ⟨u, fun f _ => .refl u f, ?_⟩
    rw [List.nil_append, hostFields, parseHostChar_userinfo hs, if_pos rfl]
    rfl
  | cons c info ih =>
    have hc := hinfo c (List.mem_cons_self ..)
    have hne : c ≠ code '@' := by
      rintro rfl
      exact absurd hc (by decide)
    have hnext : parseHostChar s c = .userinfo := by
      rw [parseHostChar_userinfo hs, if_neg hne, if_pos hc]
    have hfield (f : UrlField) (hf : f ≠ .userinfo) : u.SameAt (hostField u s .userinfo p) f := by
      simp only [hostField]
      split_ifs
      · exact (sameAt_setField u hf).trans (sameAt_grow _ hf)
      · exact sameAt_grow u hf
    obtain ⟨u', hsame, heq⟩ := ih (u := hostField u s .userinfo p) (p := p + 1) (.inr rfl)
      fun d hd => hinfo d (List.mem_cons_of_mem _ hd)
    refine ⟨u', fun f hf => (hfield f hf).trans (hsame f hf), ?_⟩
    rw [List.cons_append, hostFields, hnext, heq, List.length_cons]
    congr 1
    omega

/-- A run of a host lengthens its field. -/
theorem hostFields_run {ok : UInt8 → Bool} (ht : t = .host ∨ t = .hostV6)
    (hstays : ∀ c, ok c = true → parseHostChar t c = t) {run : Bytes}
    (hrun : ∀ c ∈ run, ok c = true) (rest : Bytes) :
    ∃ u', (∀ f, f ≠ .host → u.SameAt u' f) ∧ u'.fieldSet .host = u.fieldSet .host ∧
      u'.fieldData .host =
        ⟨(u.fieldData .host).off, (u.fieldData .host).len + run.length.toUInt16⟩ ∧
      hostFields u t p (run ++ rest) = hostFields u' t (p + run.length) rest := by
  induction run generalizing u p with
  | nil => exact ⟨u, fun f _ => .refl u f, rfl, by simp, rfl⟩
  | cons c run ih =>
    have hc := hstays c (hrun c (List.mem_cons_self ..))
    have hfield : hostField u t t p = u.grow .host := by
      obtain rfl | rfl := ht <;> rfl
    obtain ⟨u', hsame, hset, hdata, heq⟩ := ih (u := u.grow .host) (p := p + 1) fun d hd =>
      hrun d (List.mem_cons_of_mem _ hd)
    refine ⟨u', fun f hf => (sameAt_grow u hf).trans (hsame f hf), hset, ?_, ?_⟩
    · rw [hdata, List.length_cons, ← add_length]
      simp [Url.grow]
    · rw [List.cons_append, hostFields, hc, hfield, heq, List.length_cons]
      congr 1
      omega

/-- The first character of a host sets its offset. -/
theorem hostFields_host {ok : UInt8 → Bool} (ht : t = .host ∨ t = .hostV6) (hne : s ≠ t)
    {c : UInt8} {run : Bytes} (hc : parseHostChar s c = t)
    (hstays : ∀ c, ok c = true → parseHostChar t c = t) (hrun : ∀ c ∈ run, ok c = true)
    (hlen : (u.fieldData .host).len = 0) (rest : Bytes) :
    ∃ u', (∀ f, f ≠ .host → u.SameAt u' f) ∧ u'.fieldSet .host = u.fieldSet .host ∧
      u'.fieldData .host = ⟨p.toUInt16, (c :: run).length.toUInt16⟩ ∧
      hostFields u s p (c :: run ++ rest) = hostFields u' t (p + (c :: run).length) rest := by
  -- the first character sets the offset, and each lengthens the host by one
  have hfield : hostField u s t p = Url.grow { u with
      fieldData := fun g =>
        if g = .host then { u.fieldData .host with off := p.toUInt16 } else u.fieldData g } .host := by
    obtain rfl | rfl := ht <;> simp only [hostField, if_pos hne]
  obtain ⟨u', hsame, hset, hdata, heq⟩ := hostFields_run (u := hostField u s t p) (p := p + 1) ht
    hstays hrun rest
  refine ⟨u', fun f hf => ?_, ?_, ?_, ?_⟩
  · have hthis : u.SameAt (hostField u s t p) f := by
      rw [hfield]
      simp [Url.SameAt, Url.grow, hf]
    exact hthis.trans (hsame f hf)
  · exact hset.trans (hostField_host ..)
  · rw [hdata, hfield]
    simp [Url.grow, hlen, UInt16.add_comm]
  · rw [List.cons_append, hostFields, hc, heq, List.length_cons]
    congr 1
    omega

/-- More digits of a port lengthen its field. -/
theorem hostFields_digits {digits : Bytes} (hdigits : ∀ c ∈ digits, isNum c = true) :
    (∀ f, f ≠ .port → u.SameAt (hostFields u .port p digits) f) ∧
      (hostFields u .port p digits).fieldSet .port = u.fieldSet .port ∧
      ((hostFields u .port p digits).fieldData .port).off = (u.fieldData .port).off := by
  induction digits generalizing u p with
  | nil => exact ⟨fun f _ => .refl u f, rfl, rfl⟩
  | cons c digits ih =>
    have hc : parseHostChar .port c = .port := if_pos (hdigits c (List.mem_cons_self ..))
    obtain ⟨hsame, hset, hoff⟩ := ih (u := u.grow .port) (p := p + 1) fun d hd =>
      hdigits d (List.mem_cons_of_mem _ hd)
    rw [hostFields, hc]
    exact ⟨fun f hf => (sameAt_grow u hf).trans (hsame f hf), hset, hoff⟩

/-- What is left of a port whose digits stand at `p`. -/
def PortFields (port : Option Bytes) (p : Nat) (u u' : Url) : Prop :=
  match port with
  | none => u'.fieldSet .port = u.fieldSet .port
  | some _ => u'.fieldSet .port = true ∧ (u'.fieldData .port).off = p.toUInt16

/-- A port begins behind its colon. -/
theorem hostFields_portText (hcolon : parseHostChar s (code ':') = .portStart)
    {port : Option Bytes} (hport : PortOk port) :
    (∀ f, f ≠ .port → u.SameAt (hostFields u s p (portText port)) f) ∧
      PortFields port (p + 1) u (hostFields u s p (portText port)) := by
  cases port with
  | none => exact ⟨fun f _ => .refl u f, rfl⟩
  | some digits =>
    obtain ⟨hne, hdigits⟩ := hport digits rfl
    obtain ⟨d, ds, rfl⟩ := List.exists_cons_of_ne_nil hne
    have hd : parseHostChar .portStart d = .port := if_pos (hdigits d (List.mem_cons_self ..))
    have hstep : hostFields u s p (portText (some (d :: ds))) =
        hostFields ((u.setField .port ⟨(p + 1).toUInt16, 0⟩).grow .port) .port (p + 2) ds := by
      show hostFields u s p (code ':' :: d :: ds) = _
      rw [hostFields, hcolon, hostFields, hd]
      rfl
    obtain ⟨hsame, hset, hoff⟩ := hostFields_digits (p := p + 2)
      (u := (u.setField .port ⟨(p + 1).toUInt16, 0⟩).grow .port)
      fun c hc => hdigits c (List.mem_cons_of_mem _ hc)
    rw [hstep]
    exact ⟨fun f hf => ((sameAt_setField u hf).trans (sameAt_grow _ hf)).trans (hsame f hf),
      hset, hoff⟩

/-- Behind a host the port does not touch its field. -/
theorem hostFields_behindHost (hcolon : parseHostChar s (code ':') = .portStart)
    {port : Option Bytes} (hport : PortOk port) (hsame : u.SameAt u' .port) {d : FieldData}
    (hdata : u'.fieldData .host = d) {u'' : Url} (h : u'' = hostFields u' s p (portText port)) :
    u''.fieldData .host = d ∧ PortFields port (p + 1) u u'' := by
  obtain ⟨hsame', hfields⟩ := hostFields_portText (u := u') (p := p) hcolon hport
  rw [← h] at hsame' hfields
  refine ⟨(hsame' .host (by decide)).2.trans hdata, ?_⟩
  cases port with
  | none => exact Eq.trans hfields hsame.1
  | some digits => exact hfields

/-- A host and a port. -/
theorem hostFields_hostText {bracketed : Bool} {host : Bytes} {port : Option Bytes}
    (hne : host ≠ []) (hhost : HostOk bracketed host) (hport : PortOk port)
    (hlen : (u.fieldData .host).len = 0) :
    (hostFields u .hostStart p (hostText bracketed host port)).fieldData .host =
        ⟨(p + if bracketed then 1 else 0).toUInt16, host.length.toUInt16⟩ ∧
      PortFields port (p + (host.length + if bracketed then 3 else 1)) u
        (hostFields u .hostStart p (hostText bracketed host port)) := by
  obtain ⟨c, cs, rfl⟩ := List.exists_cons_of_ne_nil hne
  have hc := hhost c (List.mem_cons_self ..)
  have hcs : HostOk bracketed cs := fun d hd => hhost d (List.mem_cons_of_mem _ hd)
  -- an address in brackets, or a name
  cases bracketed with
  | true =>
    have hstays (c : UInt8) (hc : isV6Char c = true) : parseHostChar .hostV6 c = .hostV6 := by
      rw [parseHostChar_v6, if_pos hc]
    have hfirst : parseHostChar .hostV6Start c = .hostV6 := by
      rw [parseHostChar_v6Start, if_pos (show isV6Char c = true from hc)]
    obtain ⟨u₁, hsame, -, hdata, heq⟩ := hostFields_host (p := p + 1) (.inr rfl) (by decide) hfirst
      hstays hcs hlen (code ']' :: portText port)
    -- the brackets belong to no field
    have hrun : hostFields u .hostStart p (hostText true (c :: cs) port) =
        hostFields u₁ .hostV6End (p + 1 + (c :: cs).length + 1) (portText port) := by
      have htext : hostText true (c :: cs) port =
          code '[' :: (c :: cs ++ code ']' :: portText port) := rfl
      have hopen : parseHostChar .hostStart (code '[') = .hostV6Start := by decide
      have hclose : parseHostChar .hostV6 (code ']') = .hostV6End := by decide
      rw [htext, hostFields, hopen]
      change hostFields u .hostV6Start (p + 1) (c :: cs ++ code ']' :: portText port) = _
      rw [heq, hostFields, hclose]
      rfl
    obtain ⟨hhost', hport'⟩ := hostFields_behindHost (by decide) hport (hsame .port (by decide)) hdata hrun
    refine ⟨hhost', ?_⟩
    have hpos : p + ((c :: cs).length + 3) = p + 1 + (c :: cs).length + 1 + 1 := by omega
    rw [if_pos rfl, hpos]
    exact hport'
  | false =>
    have hstays (c : UInt8) (hc : isHostChar c = true) : parseHostChar .host c = .host := if_pos hc
    have hhostChar : isHostChar c = true := hc
    have hopen : c ≠ code '[' := by
      rintro rfl
      exact absurd hhostChar (by decide)
    have hfirst : parseHostChar .hostStart c = .host := by
      simp [parseHostChar, hopen, hhostChar]
    obtain ⟨u₁, hsame, -, hdata, heq⟩ := hostFields_host (p := p) (.inl rfl) (by decide) hfirst
      hstays hcs hlen (portText port)
    obtain ⟨hhost', hport'⟩ := hostFields_behindHost (by decide) hport (hsame .port (by decide)) hdata heq
    refine ⟨hhost', ?_⟩
    have hpos : p + ((c :: cs).length + 1) = p + (c :: cs).length + 1 := by omega
    rw [if_neg (by decide), hpos]
    exact hport'

/-- **The fields of an authority** at `p`: the host, and where its port begins. -/
theorem hostFields_authority (a : Authority) (hlen : (u.fieldData .host).len = 0) :
    (hostFields u (hostStartState a.userinfo.isSome) p a.text).fieldData .host =
        ⟨(p + a.hostOffset).toUInt16, a.host.length.toUInt16⟩ ∧
      PortFields a.port (p + a.portOffset) u
        (hostFields u (hostStartState a.userinfo.isSome) p a.text) := by
  -- with user information the host begins behind its `@`
  obtain ⟨userinfo, bracketed, host, port, hinfo, hne, hhost, hport⟩ := a
  cases userinfo with
  | none =>
    have hfields := hostFields_hostText (u := u) (p := p) hne hhost hport hlen
    simpa only [Authority.text, Authority.hostOffset, Authority.portOffset, userinfoText,
      Option.map_none, Option.getD_none, List.nil_append, List.length_nil, Nat.zero_add,
      Option.isSome_none, hostStartState, Bool.false_eq_true, if_false] using hfields
  | some info =>
    obtain ⟨u₁, hsame, heq⟩ := hostFields_userinfo (u := u) (p := p) (.inl rfl) (hinfo info rfl)
      (hostText bracketed host port)
    obtain ⟨hdata, hportFields⟩ := hostFields_hostText (u := u₁) (p := p + (info.length + 1)) hne hhost
      hport ((hsame .host (by decide)).2 ▸ hlen)
    rw [← heq, Nat.add_assoc p] at hdata hportFields
    have htext : Authority.text ⟨some info, bracketed, host, port, hinfo, hne, hhost, hport⟩ =
        info ++ code '@' :: hostText bracketed host port := by
      simp [Authority.text, userinfoText]
    have hlength : (userinfoText (some info)).length = info.length + 1 := by simp [userinfoText]
    rw [htext, Authority.hostOffset, Authority.portOffset, hlength]
    refine ⟨hdata, ?_⟩
    cases port with
    | none => exact Eq.trans hportFields (hsame .port (by decide)).1
    | some digits => exact hportFields

end SecondLoop

end Sails.HttpParser
