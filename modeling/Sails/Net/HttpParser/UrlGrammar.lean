import Sails.Net.HttpParser.Url

/-!
# The grammar of urls

What the two automata of `http_parser_parse_url` take behind `http://`.

- `Authority`, `Target`: the parts of a url with their characters
- `exists_run`: a text is cut where a state is left
- `alive_target_iff`: what the first automaton takes from the path on
- `exists_authority`: what the second takes for user info, host and port
-/

namespace Sails.HttpParser

open CMemory

/-! ## Parts of a url -/

/-- A character of an address in brackets. -/
def isV6Char (c : UInt8) : Bool := isHex c || c = code ':' || c = code '.'

/-- A character of a query. -/
def isQueryChar (c : UInt8) : Bool := isUrlChar c || c = code '?'

/-- A character of a fragment. -/
def isFragmentChar (c : UInt8) : Bool := isQueryChar c || c = code '#'

/-- The digits of a port, if there is one. -/
def PortOk (port : Option Bytes) : Prop := ∀ t ∈ port, t ≠ [] ∧ ∀ c ∈ t, isNum c = true

/-- The characters of a host. -/
def HostOk (bracketed : Bool) (host : Bytes) : Prop :=
  ∀ c ∈ host, (if bracketed then isV6Char c else isHostChar c) = true

/-- The characters of a query, if there is one. -/
def QueryOk (query : Option Bytes) : Prop := ∀ t ∈ query, ∀ c ∈ t, isQueryChar c = true

/-- The characters of a fragment, if there is one. -/
def FragmentOk (fragment : Option Bytes) : Prop :=
  ∀ t ∈ fragment, ∀ c ∈ t, isFragmentChar c = true

/-- The text of a port, with its colon. -/
def portText (port : Option Bytes) : Bytes := (port.map (code ':' :: ·)).getD []

/-- A host, in brackets or not, with a port behind it. -/
def hostText (bracketed : Bool) (host : Bytes) (port : Option Bytes) : Bytes :=
  (if bracketed then [code '['] else []) ++ host ++
    ((if bracketed then [code ']'] else []) ++ portText port)

/-- The text of a user info, with its `@`. -/
def userinfoText (userinfo : Option Bytes) : Bytes := (userinfo.map (· ++ [code '@'])).getD []

/-- The text of a fragment, with its `#`. -/
def fragmentText (fragment : Option Bytes) : Bytes := (fragment.map (code '#' :: ·)).getD []

/-- What follows a path: a query with its `?` and a fragment. -/
def tailText (query fragment : Option Bytes) : Bytes :=
  (query.map (code '?' :: ·)).getD [] ++ fragmentText fragment

/-- The number the digits of a port stand for. -/
def portValue (digits : Bytes) : Nat := digits.foldl (fun n c => n * 10 + digit c) 0

/-- `userinfo@host:port`, where the user info and the port may be left out and the host may be an
address in brackets. -/
structure Authority where
  userinfo : Option Bytes
  bracketed : Bool
  host : Bytes
  port : Option Bytes
  userinfo_ok : ∀ t ∈ userinfo, ∀ c ∈ t, isUserinfoChar c = true
  host_ne_nil : host ≠ []
  host_ok : HostOk bracketed host
  port_ok : PortOk port

namespace Authority

variable (a : Authority)

def text : Bytes := userinfoText a.userinfo ++ hostText a.bracketed a.host a.port

/-- The length of what stands in front of the host. -/
def hostOffset : Nat := (userinfoText a.userinfo).length + if a.bracketed then 1 else 0

/-- The length of what stands in front of the digits of the port. -/
def portOffset : Nat :=
  (userinfoText a.userinfo).length + (a.host.length + if a.bracketed then 3 else 1)

/-- A port has 16 bits. -/
def PortFits : Prop := ∀ t ∈ a.port, portValue t ≤ 65535

/-- The given port or 80. -/
def portNumber : Nat := (a.port.map portValue).getD 80

end Authority

/-- `/path?query#fragment`, where each part may be left out, but there is no fragment alone. -/
structure Target where
  path : Bytes
  query : Option Bytes
  fragment : Option Bytes
  path_slash : path = [] ∨ path.head? = some (code '/')
  path_ok : ∀ c ∈ path, isUrlChar c = true
  query_ok : QueryOk query
  fragment_ok : FragmentOk fragment
  fragment_behind : fragment.isSome → path ≠ [] ∨ query.isSome

namespace Target

variable (t : Target)

def text : Bytes := t.path ++ tailText t.query t.fragment

/-- The query, empty if there is none. -/
def queryText : Bytes := t.query.getD []

end Target

/-! ## Runs of one state -/

section Runs

variable {σ α : Type*} {step : σ → α → σ} {s : σ} {stays : α → Bool}

/-- Characters that do not change a state. -/
theorem foldl_of_stays (hstays : ∀ c, stays c = true → step s c = s) {cs : List α}
    (hcs : ∀ c ∈ cs, stays c = true) : cs.foldl step s = s := by
  induction cs with
  | nil => rfl
  | cons c cs ih =>
    rw [List.foldl_cons, hstays c (hcs c (List.mem_cons_self ..))]
    exact ih fun d hd => hcs d (List.mem_cons_of_mem _ hd)

/-- A text is cut at the first character that changes a state. -/
theorem exists_run (hstays : ∀ c, stays c = true → step s c = s) (cs : List α) :
    ∃ run rest, cs = run ++ rest ∧ (∀ c ∈ run, stays c = true) ∧
      (∀ c ∈ rest.head?, stays c = false) ∧ cs.foldl step s = rest.foldl step s := by
  have hrun : ∀ c ∈ cs.takeWhile stays, stays c = true := fun c hc => List.mem_takeWhile_imp hc
  refine ⟨cs.takeWhile stays, cs.dropWhile stays, (List.takeWhile_append_dropWhile ..).symm, hrun,
    fun c hc => ?_, ?_⟩
  · have hhead := List.head?_dropWhile_not stays cs
    rw [Option.mem_def.mp hc] at hhead
    simpa using hhead
  · conv_lhs => rw [← List.takeWhile_append_dropWhile (p := stays) (l := cs), List.foldl_append,
      foldl_of_stays hstays hrun]

end Runs

/-! ## The path and what follows -/

theorem parseUrlChar_path (c : UInt8) :
    parseUrlChar .reqPath c =
      if isUrlChar c then .reqPath else if c = code '?' then .reqQueryStringStart
      else if c = code '#' then .reqFragmentStart else .dead := by
  revert c
  exact forall_byte (by decide +kernel)

theorem parseUrlChar_query (c : UInt8) :
    parseUrlChar .reqQueryString c =
      if isQueryChar c then .reqQueryString else if c = code '#' then .reqFragmentStart
      else .dead := by
  revert c
  exact forall_byte (by decide +kernel)

theorem parseUrlChar_queryStart (c : UInt8) :
    parseUrlChar .reqQueryStringStart c = parseUrlChar .reqQueryString c := by
  revert c
  exact forall_byte (by decide +kernel)

theorem parseUrlChar_fragment (c : UInt8) :
    parseUrlChar .reqFragment c = if isFragmentChar c then .reqFragment else .dead := by
  revert c
  exact forall_byte (by decide +kernel)

theorem parseUrlChar_fragmentStart (c : UInt8) :
    parseUrlChar .reqFragmentStart c =
      if c = code '#' then .reqFragmentStart else parseUrlChar .reqFragment c := by
  revert c
  exact forall_byte (by decide +kernel)

/-- The fragment goes to the end. -/
theorem alive_fragment_iff {s : State} (hs : s = .reqFragmentStart ∨ s = .reqFragment) (cs : Bytes) :
    cs.foldl parseUrlChar s ≠ .dead ↔ ∀ c ∈ cs, isFragmentChar c = true := by
  -- by induction on the characters: the first one the fragment cannot hold kills the automaton
  induction cs generalizing s with
  | nil => obtain rfl | rfl := hs <;> simp
  | cons c cs ih =>
    rw [List.foldl_cons, List.forall_mem_cons]
    by_cases hc : isFragmentChar c = true
    · have hnext : parseUrlChar s c = .reqFragmentStart ∨ parseUrlChar s c = .reqFragment := by
        obtain rfl | rfl := hs
        · rw [parseUrlChar_fragmentStart, parseUrlChar_fragment, if_pos hc]
          exact ite_eq_or_eq ..
        · rw [parseUrlChar_fragment, if_pos hc]
          exact .inr rfl
      rw [ih hnext]
      exact (and_iff_right hc).symm
    · have hdead : parseUrlChar s c = .dead := by
        have hne : c ≠ code '#' := by
          rintro rfl
          exact hc (by decide)
        obtain rfl | rfl := hs
        · rw [parseUrlChar_fragmentStart, if_neg hne, parseUrlChar_fragment, if_neg hc]
        · rw [parseUrlChar_fragment, if_neg hc]
      rw [hdead, foldl_parseUrlChar_dead]
      simp [hc]

theorem fragmentOk_none : FragmentOk none := fun _ ht => nomatch ht

theorem fragmentOk_some {t : Bytes} (h : ∀ c ∈ t, isFragmentChar c = true) : FragmentOk (some t) :=
  fun _ ht => Option.some.inj ht ▸ h

/-- A query with a fragment behind it. -/
theorem alive_query_iff (cs : Bytes) :
    cs.foldl parseUrlChar .reqQueryString ≠ .dead ↔
      ∃ query fragment, cs = query ++ fragmentText fragment ∧
        (∀ c ∈ query, isQueryChar c = true) ∧ FragmentOk fragment := by
  have hstays (c : UInt8) (hc : isQueryChar c = true) :
      parseUrlChar .reqQueryString c = .reqQueryString := by rw [parseUrlChar_query, if_pos hc]
  have hhash : parseUrlChar .reqQueryString (code '#') = .reqFragmentStart := by decide
  constructor
  · intro halive
    -- the query runs up to the first character that is not one of its own
    obtain ⟨query, rest, rfl, hquery, hhead, heq⟩ := exists_run hstays cs
    rw [heq] at halive
    cases rest with
    | nil => exact ⟨query, none, rfl, hquery, fragmentOk_none⟩
    | cons c fragment =>
      have hc : isQueryChar c = false := hhead c rfl
      rw [List.foldl_cons, parseUrlChar_query, if_neg (by simp [hc])] at halive
      -- which has to be the number sign of a fragment
      by_cases hcode : c = code '#'
      · rw [if_pos hcode, alive_fragment_iff (.inl rfl)] at halive
        exact ⟨query, some fragment, by rw [hcode]; rfl, hquery, fragmentOk_some halive⟩
      · rw [if_neg hcode, foldl_parseUrlChar_dead] at halive
        exact absurd rfl halive
  · rintro ⟨query, fragment, rfl, hquery, hfragment⟩
    rw [List.foldl_append, foldl_of_stays hstays hquery]
    cases fragment with
    | none => decide
    | some t =>
      show (code '#' :: t).foldl parseUrlChar .reqQueryString ≠ .dead
      rw [List.foldl_cons, hhash, alive_fragment_iff (.inl rfl)]
      exact hfragment t rfl

/-- The first character of a query makes no difference. -/
theorem alive_queryStart_iff (cs : Bytes) :
    cs.foldl parseUrlChar .reqQueryStringStart ≠ .dead ↔
      cs.foldl parseUrlChar .reqQueryString ≠ .dead := by
  cases cs with
  | nil => decide
  | cons c cs => rw [List.foldl_cons, List.foldl_cons, parseUrlChar_queryStart]

theorem queryOk_none : QueryOk none := fun _ ht => nomatch ht

theorem queryOk_some {t : Bytes} (h : ∀ c ∈ t, isQueryChar c = true) : QueryOk (some t) :=
  fun _ ht => Option.some.inj ht ▸ h

section Tail

variable {s : State} (hquery : parseUrlChar s (code '?') = .reqQueryStringStart)
  (hfragment : parseUrlChar s (code '#') = .reqFragmentStart)
include hquery hfragment

/-- Where `?` and `#` lead to a query and a fragment, these may follow. -/
theorem alive_tail (hs : s ≠ .dead) {query fragment : Option Bytes} (hq : QueryOk query)
    (hf : FragmentOk fragment) : (tailText query fragment).foldl parseUrlChar s ≠ .dead := by
  cases query with
  | some q =>
    show (code '?' :: (q ++ fragmentText fragment)).foldl parseUrlChar s ≠ .dead
    rw [List.foldl_cons, hquery, alive_queryStart_iff, alive_query_iff]
    exact ⟨q, fragment, rfl, hq q rfl, hf⟩
  | none =>
    cases fragment with
    | none => exact hs
    | some t =>
      show (code '#' :: t).foldl parseUrlChar s ≠ .dead
      rw [List.foldl_cons, hfragment, alive_fragment_iff (.inl rfl)]
      exact hf t rfl

/-- Where nothing else goes on, these follow. -/
theorem exists_tail {cs : Bytes}
    (hother : ∀ c ∈ cs.head?, c ≠ code '?' → c ≠ code '#' → parseUrlChar s c = .dead)
    (halive : cs.foldl parseUrlChar s ≠ .dead) :
    ∃ query fragment, cs = tailText query fragment ∧ QueryOk query ∧ FragmentOk fragment := by
  cases cs with
  | nil => exact ⟨none, none, rfl, queryOk_none, fragmentOk_none⟩
  | cons c cs =>
    rw [List.foldl_cons] at halive
    by_cases hquestion : c = code '?'
    · rw [hquestion, hquery, alive_queryStart_iff, alive_query_iff] at halive
      obtain ⟨query, fragment, rfl, hok, hfrag⟩ := halive
      exact ⟨some query, fragment, by rw [hquestion]; rfl, queryOk_some hok, hfrag⟩
    · by_cases hhash : c = code '#'
      · rw [hhash, hfragment, alive_fragment_iff (.inl rfl)] at halive
        exact ⟨none, some cs, by rw [hhash]; rfl, queryOk_none, fragmentOk_some halive⟩
      · rw [hother c rfl hquestion hhash, foldl_parseUrlChar_dead] at halive
        exact absurd rfl halive

end Tail

/-- A path with a query and a fragment behind it. -/
theorem alive_path_iff (cs : Bytes) :
    cs.foldl parseUrlChar .reqPath ≠ .dead ↔
      ∃ path query fragment, cs = path ++ tailText query fragment ∧
        (∀ c ∈ path, isUrlChar c = true) ∧ QueryOk query ∧ FragmentOk fragment := by
  have hstays (c : UInt8) (hc : isUrlChar c = true) : parseUrlChar .reqPath c = .reqPath := by
    rw [parseUrlChar_path, if_pos hc]
  constructor
  · intro halive
    obtain ⟨path, rest, rfl, hpath, hhead, heq⟩ := exists_run hstays cs
    rw [heq] at halive
    obtain ⟨query, fragment, rfl, hquery, hfragment⟩ := exists_tail (by decide) (by decide)
      (fun c hc hquestion hhash => by
        rw [parseUrlChar_path, if_neg (by simp [hhead c hc]), if_neg hquestion, if_neg hhash]) halive
    exact ⟨path, query, fragment, rfl, hpath, hquery, hfragment⟩
  · rintro ⟨path, query, fragment, rfl, hpath, hquery, hfragment⟩
    rw [List.foldl_append, foldl_of_stays hstays hpath]
    exact alive_tail (by decide) (by decide) (by decide) hquery hfragment

/-! ## The server -/

/-- A character of the server's part of a url, but for `@`. -/
def isServerChar (c : UInt8) : Bool := isUserinfoChar c || c = code '[' || c = code ']'

/-- The states in which the server's part is read. -/
def State.inServer : State → Bool
  | reqServerStart | reqServer | reqServerWithAt => true
  | _ => false

theorem parseUrlChar_server {s : State} (hs : s.inServer = true) (c : UInt8) :
    parseUrlChar s c =
      if isServerChar c then .reqServer
      else if c = code '@' then if s = .reqServerWithAt then .dead else .reqServerWithAt
      else if c = code '/' then .reqPath else if c = code '?' then .reqQueryStringStart
      else .dead := by
  revert c
  cases s <;> cases hs <;> exact forall_byte (by decide +kernel)

/-- **What follows the server**: a path, a query and a fragment. -/
theorem alive_target_iff {s : State} (hs : s.inServer = true) {cs : Bytes}
    (hhead : ∀ c ∈ cs.head?, isServerChar c = false ∧ c ≠ code '@') :
    cs.foldl parseUrlChar s ≠ .dead ↔ ∃ t : Target, cs = t.text := by
  -- the three ways to leave the server: path, query and end
  have hslash : parseUrlChar s (code '/') = .reqPath := by
    cases s <;> cases hs <;> decide
  have hquestion : parseUrlChar s (code '?') = .reqQueryStringStart := by
    cases s <;> cases hs <;> decide
  have hne : s ≠ .dead := by
    rintro rfl
    cases hs
  constructor
  · intro halive
    cases cs with
    | nil =>
      exact ⟨⟨[], none, none, .inl rfl, by simp, queryOk_none, fragmentOk_none, by simp⟩, rfl⟩
    | cons c cs =>
      obtain ⟨hserver, hat⟩ := hhead c rfl
      rw [List.foldl_cons, parseUrlChar_server hs, if_neg (by simp [hserver]), if_neg hat] at halive
      split_ifs at halive with hc hc'
      · obtain ⟨path, query, fragment, rfl, hpath, hquery, hfragment⟩ := (alive_path_iff cs).mp halive
        refine ⟨⟨c :: path, query, fragment, .inr (congrArg some hc), ?_, hquery, hfragment,
          fun _ => .inl (List.cons_ne_nil _ _)⟩, rfl⟩
        exact List.forall_mem_cons.mpr ⟨by rw [hc]; decide, hpath⟩
      · obtain ⟨query, fragment, rfl, hquery, hfragment⟩ :=
          (alive_query_iff cs).mp ((alive_queryStart_iff cs).mp halive)
        exact ⟨⟨[], some query, fragment, .inl rfl, by simp, queryOk_some hquery, hfragment,
          fun _ => .inr rfl⟩, by rw [hc']; rfl⟩
      · rw [foldl_parseUrlChar_dead] at halive
        exact absurd rfl halive
  · rintro ⟨⟨path, query, fragment, hslash', hpath, hquery, hfragment, hbehind⟩, rfl⟩
    -- a path begins with the slash, and without a path a query or nothing follows
    cases path with
    | cons c path =>
      obtain rfl : c = code '/' := by simpa using hslash'
      show (code '/' :: (path ++ tailText query fragment)).foldl parseUrlChar s ≠ .dead
      rw [List.foldl_cons, hslash, alive_path_iff]
      exact ⟨path, query, fragment, rfl, fun c hc => hpath c (List.mem_cons_of_mem _ hc), hquery,
        hfragment⟩
    | nil =>
      cases query with
      | some q =>
        show (code '?' :: (q ++ fragmentText fragment)).foldl parseUrlChar s ≠ .dead
        rw [List.foldl_cons, hquestion, alive_queryStart_iff, alive_query_iff]
        exact ⟨q, fragment, rfl, hquery q rfl, hfragment⟩
      | none =>
        cases fragment with
        | none => exact hne
        | some t => simpa using hbehind rfl

/-! ## The host -/

theorem parseHostChar_userinfo {s : HostState} (hs : s = .userinfoStart ∨ s = .userinfo) (c : UInt8) :
    parseHostChar s c =
      if c = code '@' then .hostStart else if isUserinfoChar c then .userinfo else .dead := by
  obtain rfl | rfl := hs <;> rfl

theorem foldl_parseHostChar_dead (cs : Bytes) : cs.foldl parseHostChar .dead = .dead :=
  have hstays : ∀ c, (fun _ => true : UInt8 → Bool) c = true → parseHostChar .dead c = .dead :=
    fun _ _ => rfl
  foldl_of_stays hstays fun _ _ => rfl

/-- The second automaton takes a text in this state: it does not die, and may end. -/
def HostState.Takes (s : HostState) (cs : Bytes) : Prop :=
  cs.foldl parseHostChar s ≠ .dead ∧ (cs.foldl parseHostChar s).final = true

instance (s : HostState) (cs : Bytes) : Decidable (s.Takes cs) := inferInstanceAs (Decidable (_ ∧ _))

theorem not_takes_dead (cs : Bytes) : ¬HostState.Takes .dead cs :=
  fun h => h.1 (foldl_parseHostChar_dead cs)

theorem HostState.takes_cons {s : HostState} {c : UInt8} {cs : Bytes} :
    s.Takes (c :: cs) ↔ (parseHostChar s c).Takes cs := Iff.rfl

/-- Characters that do not change the state make no difference. -/
theorem HostState.takes_run {s : HostState} {stays : UInt8 → Bool}
    (hstays : ∀ c, stays c = true → parseHostChar s c = s) {run rest : Bytes}
    (hrun : ∀ c ∈ run, stays c = true) : s.Takes (run ++ rest) ↔ s.Takes rest := by
  rw [Takes, List.foldl_append, foldl_of_stays hstays hrun]
  exact Iff.rfl

theorem takes_port_iff (cs : Bytes) : HostState.Takes .port cs ↔ ∀ c ∈ cs, isNum c = true := by
  induction cs with
  | nil => simp [HostState.Takes, HostState.final]
  | cons c cs ih =>
    rw [HostState.takes_cons, List.forall_mem_cons]
    by_cases hc : isNum c = true
    · rw [show parseHostChar .port c = .port from if_pos hc, ih]
      exact (and_iff_right hc).symm
    · rw [show parseHostChar .port c = .dead from if_neg hc]
      exact iff_of_false (not_takes_dead cs) fun h => hc h.1

section Port

variable {s : HostState} (hcolon : parseHostChar s (code ':') = .portStart)
include hcolon

/-- Where a colon leads to a port, the port may follow. -/
theorem takes_portText (hs : s.Takes []) {port : Option Bytes} (hport : PortOk port) :
    s.Takes (portText port) := by
  cases port with
  | none => exact hs
  | some digits =>
    obtain ⟨hne, hdigits⟩ := hport digits rfl
    obtain ⟨d, ds, rfl⟩ := List.exists_cons_of_ne_nil hne
    have hd : parseHostChar .portStart d = .port := if_pos (hdigits d (List.mem_cons_self ..))
    show s.Takes (code ':' :: d :: ds)
    rw [HostState.takes_cons, hcolon, HostState.takes_cons, hd, takes_port_iff]
    exact fun c hc => hdigits c (List.mem_cons_of_mem _ hc)

/-- Where nothing else goes on, a port follows or nothing. -/
theorem exists_portText {cs : Bytes}
    (hother : ∀ c ∈ cs.head?, c ≠ code ':' → parseHostChar s c = .dead) (htakes : s.Takes cs) :
    ∃ port, cs = portText port ∧ PortOk port := by
  cases cs with
  | nil => exact ⟨none, rfl, fun _ ht => nomatch ht⟩
  | cons c cs =>
    rw [HostState.takes_cons] at htakes
    -- behind the host only a colon goes on
    by_cases hc : c = code ':'
    · rw [hc, hcolon] at htakes
      cases cs with
      | nil => exact absurd htakes.2 (by decide)
      | cons d ds =>
        rw [HostState.takes_cons] at htakes
        -- and behind the colon there is at least one digit
        by_cases hd : isNum d = true
        · rw [show parseHostChar .portStart d = .port from if_pos hd, takes_port_iff] at htakes
          refine ⟨some (d :: ds), by rw [hc]; rfl, fun t ht => ?_⟩
          obtain rfl := Option.some.inj ht
          exact ⟨List.cons_ne_nil _ _, List.forall_mem_cons.mpr ⟨hd, htakes⟩⟩
        · rw [show parseHostChar .portStart d = .dead from if_neg hd] at htakes
          exact absurd htakes (not_takes_dead ds)
    · rw [hother c rfl hc] at htakes
      exact absurd htakes (not_takes_dead cs)

end Port

theorem parseHostChar_host (c : UInt8) :
    parseHostChar .host c =
      if isHostChar c then .host else if c = code ':' then .portStart else .dead := rfl

theorem parseHostChar_v6 (c : UInt8) :
    parseHostChar .hostV6 c =
      if isV6Char c then .hostV6 else if c = code ']' then .hostV6End else .dead := by
  revert c
  exact forall_byte (by decide +kernel)

theorem parseHostChar_v6Start (c : UInt8) :
    parseHostChar .hostV6Start c = if isV6Char c then .hostV6 else .dead := by
  simp [parseHostChar, isV6Char, or_assoc]

/-- Behind the first character of a host there are more of them and a port. -/
theorem exists_of_takes_host {cs : Bytes} (h : HostState.Takes .host cs) :
    ∃ host port, cs = host ++ portText port ∧ HostOk false host ∧ PortOk port := by
  have hstays (c : UInt8) (hc : isHostChar c = true) : parseHostChar .host c = .host := if_pos hc
  obtain ⟨host, rest, rfl, hhost, hhead, heq⟩ := exists_run hstays cs
  rw [HostState.Takes, heq] at h
  obtain ⟨port, rfl, hport⟩ := exists_portText (s := .host) (by decide) (fun c hc hcolon => by
    rw [parseHostChar_host, if_neg (by simp [hhead c hc]), if_neg hcolon]) h
  exact ⟨host, port, rfl, hhost, hport⟩

/-- Behind the first character in brackets there are more, the closing bracket and a port. -/
theorem exists_of_takes_v6 {cs : Bytes} (h : HostState.Takes .hostV6 cs) :
    ∃ host port, cs = host ++ code ']' :: portText port ∧ HostOk true host ∧ PortOk port := by
  have hstays (c : UInt8) (hc : isV6Char c = true) : parseHostChar .hostV6 c = .hostV6 := by
    rw [parseHostChar_v6, if_pos hc]
  obtain ⟨host, rest, rfl, hhost, hhead, heq⟩ := exists_run hstays cs
  rw [HostState.Takes, heq] at h
  cases rest with
  | nil => exact absurd h.2 (by decide)
  | cons c rest =>
    have hc : isV6Char c = false := hhead c rfl
    have h : (parseHostChar .hostV6 c).Takes rest := h
    rw [parseHostChar_v6, if_neg (by simp [hc])] at h
    split_ifs at h with hclose
    · obtain ⟨port, rfl, hport⟩ := exists_portText (s := .hostV6End) (by decide)
        (fun c _ hcolon => if_neg hcolon) h
      exact ⟨host, port, by rw [hclose], hhost, hport⟩
    · exact absurd h (not_takes_dead rest)

/-- **What stands behind the user info**: a host and a port. -/
theorem takes_host_iff (cs : Bytes) :
    HostState.Takes .hostStart cs ↔
      ∃ bracketed host port, cs = hostText bracketed host port ∧ host ≠ [] ∧
        HostOk bracketed host ∧ PortOk port := by
  constructor
  · intro h
    cases cs with
    | nil => exact absurd h.2 (by decide)
    | cons c cs =>
      have h : (parseHostChar .hostStart c).Takes cs := h
      simp only [parseHostChar] at h
      -- a bracket opens an address; any other host character begins a name
      split_ifs at h with hopen hc
      · cases cs with
        | nil => exact absurd h.2 (by decide)
        | cons d cs =>
          have h : (parseHostChar .hostV6Start d).Takes cs := h
          rw [parseHostChar_v6Start] at h
          split_ifs at h with hd
          · obtain ⟨host, port, rfl, hhost, hport⟩ := exists_of_takes_v6 h
            refine ⟨true, d :: host, port, by rw [hopen]; rfl, List.cons_ne_nil _ _, ?_, hport⟩
            exact List.forall_mem_cons.mpr ⟨hd, hhost⟩
          · exact absurd h (not_takes_dead cs)
      · obtain ⟨host, port, rfl, hhost, hport⟩ := exists_of_takes_host h
        refine ⟨false, c :: host, port, rfl, List.cons_ne_nil _ _, ?_, hport⟩
        exact List.forall_mem_cons.mpr ⟨hc, hhost⟩
      · exact absurd h (not_takes_dead cs)
  · rintro ⟨bracketed, host, port, rfl, hne, hhost, hport⟩
    -- the host is not empty, so that the states of its start are left
    obtain ⟨d, ds, rfl⟩ := List.exists_cons_of_ne_nil hne
    have hd := hhost d (List.mem_cons_self ..)
    have hds : HostOk bracketed ds := fun c hc => hhost c (List.mem_cons_of_mem _ hc)
    cases bracketed with
    | true =>
      have hstart : parseHostChar .hostV6Start d = .hostV6 := by
        rw [parseHostChar_v6Start, if_pos (show isV6Char d = true from hd)]
      have hstays (c : UInt8) (hc : isV6Char c = true) : parseHostChar .hostV6 c = .hostV6 := by
        rw [parseHostChar_v6, if_pos hc]
      show HostState.Takes .hostStart (code '[' :: d :: (ds ++ code ']' :: portText port))
      rw [HostState.takes_cons, show parseHostChar .hostStart (code '[') = .hostV6Start by decide,
        HostState.takes_cons, hstart, HostState.takes_run hstays hds]
      exact takes_portText (s := .hostV6End) (by decide) (by decide) hport
    | false =>
      have hhostChar : isHostChar d = true := hd
      have hopen : d ≠ code '[' := by
        rintro rfl
        exact absurd hhostChar (by decide)
      have hstart : parseHostChar .hostStart d = .host := by
        simp [parseHostChar, hopen, hhostChar]
      have hstays (c : UInt8) (hc : isHostChar c = true) : parseHostChar .host c = .host :=
        if_pos hc
      show HostState.Takes .hostStart (d :: (ds ++ portText port))
      rw [HostState.takes_cons, hstart, HostState.takes_run hstays hds]
      exact takes_portText (s := .host) (by decide) (by decide) hport

/-- Where the second automaton starts: at a user info if there is an `@`. -/
def hostStartState (foundAt : Bool) : HostState := if foundAt then .userinfoStart else .hostStart

theorem takes_userinfo {s : HostState} (hs : s = .userinfoStart ∨ s = .userinfo) {info rest : Bytes}
    (hinfo : ∀ c ∈ info, isUserinfoChar c = true) :
    s.Takes (info ++ code '@' :: rest) ↔ HostState.Takes .hostStart rest := by
  induction info generalizing s with
  | nil => rw [List.nil_append, HostState.takes_cons, parseHostChar_userinfo hs, if_pos rfl]
  | cons c info ih =>
    have hc := hinfo c (List.mem_cons_self ..)
    have hne : c ≠ code '@' := by
      rintro rfl
      exact absurd hc (by decide)
    rw [List.cons_append, HostState.takes_cons, parseHostChar_userinfo hs, if_neg hne, if_pos hc]
    exact ih (.inr rfl) fun d hd => hinfo d (List.mem_cons_of_mem _ hd)

theorem exists_of_takes_userinfo {s : HostState} (hs : s = .userinfoStart ∨ s = .userinfo)
    {cs : Bytes} (h : s.Takes cs) :
    ∃ info rest, cs = info ++ code '@' :: rest ∧ (∀ c ∈ info, isUserinfoChar c = true) ∧
      HostState.Takes .hostStart rest := by
  induction cs generalizing s with
  | nil => obtain rfl | rfl := hs <;> exact absurd h.2 (by decide)
  | cons c cs ih =>
    rw [HostState.takes_cons, parseHostChar_userinfo hs] at h
    split_ifs at h with hat hc
    · exact ⟨[], cs, by rw [hat]; rfl, by simp, h⟩
    · obtain ⟨info, rest, rfl, hinfo, hrest⟩ := ih (.inr rfl) h
      exact ⟨c :: info, rest, rfl, List.forall_mem_cons.mpr ⟨hc, hinfo⟩, hrest⟩
    · exact absurd h (not_takes_dead cs)

/-- **What the second automaton takes** is an authority. -/
theorem takes_authority_iff (foundAt : Bool) (cs : Bytes) :
    (hostStartState foundAt).Takes cs ↔
      ∃ a : Authority, cs = a.text ∧ a.userinfo.isSome = foundAt := by
  cases foundAt with
  | false =>
    -- without `@` the second pass begins at the host
    rw [show hostStartState false = .hostStart from rfl, takes_host_iff]
    constructor
    · rintro ⟨bracketed, host, port, rfl, hne, hhost, hport⟩
      exact ⟨⟨none, bracketed, host, port, fun _ ht => (nomatch ht), hne, hhost, hport⟩, rfl, rfl⟩
    · rintro ⟨a, rfl, hinfo⟩
      refine ⟨a.bracketed, a.host, a.port, ?_, a.host_ne_nil, a.host_ok, a.port_ok⟩
      have hnone : a.userinfo = none := by simpa using hinfo
      rw [Authority.text, hnone]
      rfl
  | true =>
    constructor
    · intro h
      -- with one it begins at the user information
      obtain ⟨info, rest, rfl, hinfo, hrest⟩ := exists_of_takes_userinfo (.inl rfl) h
      obtain ⟨bracketed, host, port, rfl, hne, hhost, hport⟩ := (takes_host_iff _).mp hrest
      refine ⟨⟨some info, bracketed, host, port, fun t ht => ?_, hne, hhost, hport⟩, ?_, rfl⟩
      · exact Option.some.inj ht ▸ hinfo
      · simp [Authority.text, userinfoText]
    · rintro ⟨a, rfl, hinfo⟩
      obtain ⟨info, hsome⟩ := Option.isSome_iff_exists.mp hinfo
      have htext : userinfoText (some info) = info ++ [code '@'] := rfl
      rw [Authority.text, hsome, htext, List.append_assoc, List.singleton_append]
      refine (takes_userinfo (.inl rfl) (a.userinfo_ok info hsome)).mpr ?_
      exact (takes_host_iff _).mpr ⟨a.bracketed, a.host, a.port, rfl, a.host_ne_nil, a.host_ok,
        a.port_ok⟩

end Sails.HttpParser
