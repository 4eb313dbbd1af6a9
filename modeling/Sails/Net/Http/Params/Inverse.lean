import Sails.Net.Http.Params.Splitting
import Mathlib.Data.List.Flatten
import Mathlib.Data.List.Nodup
import Mathlib.Data.List.Perm.Subperm

/-!
# When `GetParam` finds every pair of an encoded query

- `parseParam_ok`, `exists_of_parseParam`: what the first call finds of an encoded query
- `Survives`: the condition on the texts under which every pair is found again
- `getParam_inverts_iff`: `GetParam` inverts the encoding exactly with it
-/

namespace Sails.Net

open TransitionRun (Fault)
open CMemory
open Sails.Base
open Tokens

/-! ## Lists of pairs -/

section Lookup

variable {pairs : List (Bytes × Bytes)}

theorem mem_of_lookup {name value : Bytes} (h : pairs.lookup name = some value) :
    (name, value) ∈ pairs := by
  obtain ⟨front, back, hpairs, -⟩ := List.lookup_eq_some_iff.mp h
  rw [hpairs]
  exact List.mem_append_right _ (List.mem_cons_self ..)

theorem lookup_of_mem (hdistinct : (pairs.map Prod.fst).Nodup) {p : Bytes × Bytes}
    (hp : p ∈ pairs) : pairs.lookup p.1 = some p.2 := by
  induction pairs with
  | nil => cases hp
  | cons q pairs ih =>
    obtain ⟨hq, hrest⟩ := List.nodup_cons.mp hdistinct
    rcases List.mem_cons.mp hp with rfl | hp
    · exact List.lookup_cons_self
    · have hne : (p.1 == q.1) = false := by
        rw [beq_eq_false_iff_ne]
        exact fun h => hq (h ▸ List.mem_map_of_mem hp)
      rw [List.lookup_cons, hne]
      exact ih hrest hp

end Lookup

/-! ## Calls one after the other -/

section Calls

variable {stack : StackMemory} {m : HttpMessage} {param : List (Bytes × Bytes)}

/-- After the first call the parameters are only looked up. -/
theorem getParams_of_parsed (stack : StackMemory) (r : ParamRequest) (hparsed : r.isParseParam = true)
    (names : List Bytes) :
    r.getParams stack names = .ok (r, names.map fun name => (r.param.lookup name).getD []) := by
  induction names with
  | nil => rfl
  | cons name names ih =>
    have hget : r.getParam stack name = .ok (r, (r.param.lookup name).getD []) := by
      rw [ParamRequest.getParam, if_pos hparsed]
      rfl
    rw [ParamRequest.getParams, hget]
    simp only [bind, Except.bind, ih]
    rfl

theorem getParams_new_cons (name : Bytes) (names : List Bytes) :
    (ParamRequest.new m).getParams stack (name :: names) = (do
      let param ← parseParam stack m []
      let r : ParamRequest := ⟨some m, true, param⟩
      return (r, (name :: names).map fun name => (param.lookup name).getD [])) := by
  have hget : (ParamRequest.new m).getParam stack name = (do
      let param ← parseParam stack m []
      let r : ParamRequest := ⟨some m, true, param⟩
      return (r, (param.lookup name).getD [])) := by
    cases hparse : parseParam stack m [] <;>
      simp [ParamRequest.getParam, ParamRequest.new, hparse, bind, Except.bind, pure, Except.pure]
  rw [ParamRequest.getParams, hget]
  cases hparse : parseParam stack m [] with
  | error fault => rfl
  | ok param =>
    have hrest := getParams_of_parsed stack ⟨some m, true, param⟩ rfl names
    simp only [bind, Except.bind, pure, Except.pure, hrest]
    rfl

theorem getParams_new (hparse : parseParam stack m [] = .ok param) (names : List Bytes) :
    ∃ r, (ParamRequest.new m).getParams stack names =
      .ok (r, names.map fun name => (param.lookup name).getD []) := by
  cases names with
  | nil => exact ⟨_, rfl⟩
  | cons name names =>
    rw [getParams_new_cons, hparse]
    exact ⟨_, rfl⟩

theorem exists_of_getParams_new {name : Bytes} {names values : List Bytes} {r : ParamRequest}
    (h : (ParamRequest.new m).getParams stack (name :: names) = .ok (r, values)) :
    ∃ param, parseParam stack m [] = .ok param ∧
      values = (name :: names).map fun name => (param.lookup name).getD [] := by
  rw [getParams_new_cons] at h
  cases hparse : parseParam stack m [] with
  | error fault =>
    rw [hparse] at h
    cases h
  | ok param =>
    rw [hparse] at h
    cases h
    exact ⟨param, rfl, rfl⟩

end Calls

/-! ## The first call -/

theorem StackMemory.amp_mem_items (stack : StackMemory) : 38 ∈ stack.items := by
  have h : stack.items = 38 :: text stack.behindToken := rfl
  exact h ▸ List.mem_cons_self ..

theorem StackMemory.eq_mem_fields (stack : StackMemory) : 61 ∈ stack.fields := by
  have h : stack.fields = 61 :: text stack.behindFtoken := rfl
  exact h ▸ List.mem_cons_self ..

section Parse

variable {stack : StackMemory} {m : HttpMessage} {pairs : List (Bytes × Bytes)}
  {param : List (Bytes × Bytes)}

theorem queryText_ne_nil (hpairs : pairs ≠ []) : queryText pairs ≠ [] := by
  cases pairs with
  | nil => exact absurd rfl hpairs
  | cons p pairs =>
    cases pairs with
    | nil =>
      rw [queryText, List.map_cons, List.map_nil, joinPairs_single]
      simp [ascii]
    | cons p' pairs =>
      rw [queryText, List.map_cons, List.map_cons, joinPairs_cons_cons]
      simp [ascii]

theorem ne_zero_of_mem_queryText (h : QueryPairs m pairs) (hascii : AsciiPairs pairs) :
    ∀ c ∈ queryText pairs, c ≠ 0 := by
  rw [← flatten_codes]
  intro c hc
  obtain ⟨code, hcode, hc⟩ := List.mem_flatten.mp hc
  obtain ⟨x, hx, rfl⟩ := List.mem_map.mp hcode
  exact (decodes_queryCodes h hascii x hx).ne_zero c hc

/-- The headers are collected, then the query is decoded chunk by chunk and split. -/
theorem parseParam_eq (stack : StackMemory) (hm : m.WellFormed) (h : QueryPairs m pairs) (hascii : AsciiPairs pairs)
    (hpairs : pairs ≠ []) (hquery : m.queryString.str = queryText pairs) :
    ∃ param, (∀ name, ¬m.IsHeaderName name → param.lookup name = none) ∧
      parseParam stack m [] = (do
        let decoded ← fillFrom maxElementSize (List.replicate maxElementSize 0) 0
          ((queryCodes pairs).map Prod.snd)
        let str ← stringOf decoded
        let items ← split str (ascii "&" ++ stack.behindToken)
        queryParams stack param items) := by
  obtain ⟨param, hheaders, hlookup⟩ := headerParams_ok hm [] (i := 0) (Nat.zero_add _)
  refine ⟨param, hlookup, ?_⟩
  have hlen := CharArray.strlen_bytes hm.queryString
  obtain ⟨behind, hbytes⟩ := eq_text_append_of_lt (l := m.queryString.bytes) (by
    rw [m.queryString.length_bytes]
    exact hm.queryString)
  have hstr : text m.queryString.bytes = ((queryCodes pairs).map Prod.fst).flatten :=
    hquery.trans (flatten_codes pairs).symm
  have hsize : maxElementSize = 2048 := rfl
  -- the query is decoded code by code
  have hdecode : urlDecode m.queryString.bytes (List.replicate maxElementSize 0) maxElementSize =
      fillFrom maxElementSize (List.replicate maxElementSize 0) 0
        ((queryCodes pairs).map Prod.snd) := by
    rw [hbytes, hstr]
    refine urlDecode_eq (decodes_queryCodes h hascii) ?_ behind
    rw [flatten_codes]
    exact h.fits.trans (by decide)
  have hpos : 0 < m.queryString.str.length :=
    List.length_pos_of_ne_nil (hquery ▸ queryText_ne_nil hpairs)
  rw [parseParam, hheaders, hlen, hdecode]
  simp only [bind, Except.bind, if_pos hpos]

/-- A decoded query that fits is split as a whole. -/
theorem parseParam_ok (stack : StackMemory) (hm : m.WellFormed) (h : QueryPairs m pairs) (hascii : AsciiPairs pairs)
    (hpairs : pairs ≠ []) (hquery : m.queryString.str = queryText pairs)
    (hended : 0 ∈ stack.behindToken ∧ 0 ∈ stack.behindFtoken)
    (hfits : (joinPairs (decodedPairs pairs)).length < maxElementSize) :
    ∃ param, parseParam stack m [] = .ok param ∧ ∀ name, ¬m.IsHeaderName name →
      param.lookup name =
        (paramsOf stack.items stack.fields (joinPairs (decodedPairs pairs))).lookup name := by
  obtain ⟨param, hlookup, hparse⟩ := parseParam_eq stack hm h hascii hpairs hquery
  have hne : ∀ chunk ∈ (queryCodes pairs).map Prod.snd, chunk ≠ [] := by
    intro chunk hchunk
    obtain ⟨code, hcode, rfl⟩ := List.mem_map.mp hchunk
    exact List.ne_nil_of_length_pos (decodes_queryCodes h hascii code hcode).length_pos.2
  -- the decoded text and its NUL fit into the array
  have hroom : 0 + ((queryCodes pairs).map Prod.snd).flatten.length + 1 ≤ maxElementSize := by
    rw [flatten_chunks]
    omega
  -- without a NUL in between, the string is the whole text
  have hzero : ∀ c ∈ joinPairs (decodedPairs pairs), c ≠ 0 := by
    rw [← flatten_chunks]
    exact chunks_ne_zero h [] (List.append_nil _).symm
  rw [fillFrom_eq (by rw [List.length_replicate]) hne hroom, flatten_chunks] at hparse
  simp only [bind, Except.bind, stringOf_splice hzero, split_token stack hzero,
    if_pos hended.1] at hparse
  rw [queryParams_eq hended.2 param fun item hitem c hc =>
    hzero c (mem_of_mem_tokens hitem c hc)] at hparse
  refine ⟨_, hparse, fun name hname => ?_⟩
  rw [lookup_foldl_insertParam, hlookup name hname, Option.none_or]
  rfl

/-- If something of the query is found, the delimiters ended, and all that is found stands in the
chunks that were written. -/
theorem exists_of_parseParam (hm : m.WellFormed) (h : QueryPairs m pairs)
    (hascii : AsciiPairs pairs) (hpairs : pairs ≠ [])
    (hquery : m.queryString.str = queryText pairs) (hparse : parseParam stack m [] = .ok param)
    {name value : Bytes} (hname : ¬m.IsHeaderName name) (hvalue : param.lookup name = some value) :
    (0 ∈ stack.behindToken ∧ 0 ∈ stack.behindFtoken) ∧
      ∃ done rest, (queryCodes pairs).map Prod.snd = done ++ rest ∧
        done.flatten.length < maxElementSize ∧
        ∀ name value, ¬m.IsHeaderName name → param.lookup name = some value →
          (name, value) ∈ paramsOf stack.items stack.fields done.flatten := by
  obtain ⟨start, hstart, heq⟩ := parseParam_eq stack hm h hascii hpairs hquery
  rw [hparse] at heq
  cases hfill : fillFrom maxElementSize (List.replicate maxElementSize 0) 0
      ((queryCodes pairs).map Prod.snd) with
  | error fault =>
    rw [hfill] at heq
    cases heq
  | ok decoded =>
    -- the array holds what was decoded before it was full
    obtain ⟨done, rest, hdone, hdecoded, hlt, -⟩ := exists_of_fillFrom hfill
    rw [Nat.zero_add, List.length_replicate] at hlt
    have hzero := chunks_ne_zero h rest hdone
    rw [hfill, hdecoded] at heq
    simp only [bind, Except.bind, stringOf_splice hzero, split_token stack hzero] at heq
    by_cases htoken : 0 ∈ stack.behindToken
    · rw [if_pos htoken] at heq
      by_cases hftoken : 0 ∈ stack.behindFtoken
      · have hquery := queryParams_eq hftoken start fun item hitem c hc =>
          hzero c (mem_of_mem_tokens (p := fun b => stack.items.contains b) hitem c hc)
        refine ⟨⟨htoken, hftoken⟩, done, rest, hdone, hlt, fun name value hname hvalue => ?_⟩
        have hparam := Except.ok.inj (heq.trans hquery)
        rw [hparam, lookup_foldl_insertParam, hstart name hname, Option.none_or] at hvalue
        exact mem_of_lookup hvalue
      -- without a NUL behind `ftoken` only a query without items does not fault
      · cases hitems : tokens (fun b => stack.items.contains b) done.flatten with
        | nil =>
          rw [hitems] at heq
          cases heq
          rw [hstart name hname] at hvalue
          cases hvalue
        | cons item items =>
          have hitem : ∀ c ∈ item, c ≠ 0 := fun c hc =>
            hzero c (mem_of_mem_tokens (hitems ▸ List.mem_cons_self ..) c hc)
          rw [hitems] at heq
          have hfault : queryParams stack start (item :: items) = .error .outOfBounds := by
            rw [queryParams, split_ftoken stack hitem, if_neg hftoken]
            rfl
          cases heq.trans hfault
    · rw [if_neg htoken] at heq
      cases heq

end Parse

/-! ## Finding all pairs -/

section Counting

variable {items fields str : Bytes} {pairs found : List (Bytes × Bytes)}

/-- Different pairs that are all found are together not longer than what is found. -/
theorem length_pairTexts_le (hdistinct : pairs.Nodup) (h : pairs ⊆ found) :
    (pairTexts pairs).length ≤ (pairTexts found).length := by
  obtain ⟨l, hperm, hsub⟩ := hdistinct.subperm h
  have hsame : (pairTexts l).length = (pairTexts pairs).length :=
    (hperm.flatMap_right _).length_eq
  exact hsame ▸ (hsub.flatMap _).length_le

theorem pairTexts_decodedPairs (pairs : List (Bytes × Bytes)) :
    pairTexts (decodedPairs pairs) = decodedText (pairTexts pairs) := by
  induction pairs with
  | nil => rfl
  | cons p pairs ih =>
    have hcons : decodedPairs (p :: pairs) =
        (decodedText p.1, decodedText p.2) :: decodedPairs pairs := rfl
    rw [hcons, pairTexts_cons, pairTexts_cons, ih, decodedText_append, decodedText_append]

/-- If decoding only reorders the pairs, it changes none. -/
theorem no_space_of_subset (hdistinct : pairs.Nodup) (h : pairs ⊆ decodedPairs pairs) :
    ∀ p ∈ pairs, 32 ∉ p.1 ∧ 32 ∉ p.2 := by
  have hperm : pairs.Perm (decodedPairs pairs) :=
    (hdistinct.subperm h).perm_of_length_le (by rw [decodedPairs, List.length_map])
  have hlength : (pairTexts pairs).length = (pairTexts (decodedPairs pairs)).length :=
    (hperm.flatMap_right _).length_eq
  rw [pairTexts_decodedPairs, length_decodedText] at hlength
  have hspace : 32 ∉ pairTexts pairs := List.count_eq_zero.mp (by omega)
  intro p hp
  have hnot : 32 ∉ p.1 ++ p.2 := fun h => hspace (List.mem_flatMap_of_mem hp h)
  exact ⟨fun h => hnot (List.mem_append_left _ h), fun h => hnot (List.mem_append_right _ h)⟩

/-- A pair that is found is found in the item of a pair. -/
theorem exists_decodedItem (hamp : 38 ∈ items)
    (h : pairs ⊆ paramsOf items fields (joinPairs (decodedPairs pairs))) {p : Bytes × Bytes}
    (hp : p ∈ pairs) : ∃ q ∈ pairs, p ∈ paramsOf items fields (decodedItem q) := by
  have hfound := h hp
  rw [paramsOf_joinPairs hamp, decodedPairs, List.flatMap_map] at hfound
  exact List.mem_flatMap.mp hfound

/-- Pairs that are all found are kept, where a `+` separates. -/
theorem kept_of_plus (hamp : 38 ∈ items) (heq : 61 ∈ fields) (hplus : 43 ∈ items ∨ 43 ∈ fields)
    (hne : ∀ p ∈ pairs, p.1 ≠ [] ∧ p.2 ≠ [])
    (h : pairs ⊆ paramsOf items fields (joinPairs (decodedPairs pairs))) :
    ∀ p ∈ pairs, Kept items fields p := by
  intro p hp
  have hfollowed : Followed 32 43 (joinPairs (decodedPairs pairs)) := by
    rw [← flatten_chunks]
    exact followed_chunks [] (List.append_nil _).symm
  obtain ⟨q, hq, hfound⟩ := exists_decodedItem hamp h hp
  obtain ⟨rfl, hkept⟩ := kept_of_mem_decodedItem heq hplus (hne q hq)
    (free_of_mem_paramsOf (h hq)) (spaceLast_of_mem_paramsOf hplus hfollowed (h hq)) hfound
  exact hkept

/-- Pairs that are all found are kept, where no `+` separates. -/
theorem kept_of_no_plus (hamp : 38 ∈ items) (heq : 61 ∈ fields) (hitems : 43 ∉ items)
    (hfields : 43 ∉ fields) (hne : ∀ p ∈ pairs, p.1 ≠ [] ∧ p.2 ≠ []) (hdistinct : pairs.Nodup)
    (h : pairs ⊆ paramsOf items fields (joinPairs (decodedPairs pairs))) :
    ∀ p ∈ pairs, Kept items fields p := by
  have hdecoded : ∀ p ∈ pairs, 61 ∉ items ∧ p ∈ decodedPairs pairs := by
    intro p hp
    obtain ⟨q, hq, hfound⟩ := exists_decodedItem hamp h hp
    rw [paramsOf_decodedItem heq hitems hfields (hne q hq) (free_of_mem_paramsOf (h hq))] at hfound
    split_ifs at hfound with hseparates
    · cases hfound
    · exact ⟨hseparates, List.mem_singleton.mp hfound ▸ List.mem_map_of_mem hq⟩
  have hspaces := no_space_of_subset hdistinct fun p hp => (hdecoded p hp).2
  refine fun p hp => ⟨(hdecoded p hp).1, free_of_mem_paramsOf (h hp), ?_⟩
  rw [if_neg hitems, if_neg hfields]
  exact hspaces p hp

/-- Where a `+` separates, pairs that are all found in the first chunks need all of them. -/
theorem rest_eq_nil (hamp : 38 ∈ items) (heq : 61 ∈ fields) (hplus : 43 ∈ items ∨ 43 ∈ fields)
    (hpairs : pairs ≠ []) (hne : ∀ p ∈ pairs, p.2 ≠ []) (hdistinct : pairs.Nodup)
    {done rest : List Bytes} (hdone : (queryCodes pairs).map Prod.snd = done ++ rest)
    (h : pairs ⊆ paramsOf items fields done.flatten) : rest = [] := by
  have hfree : ∀ p ∈ pairs, Free items fields p.1 ∧ Free items fields p.2 :=
    fun p hp => free_of_mem_paramsOf (h hp)
  by_contra hrest
  obtain ⟨front, chunk, rfl⟩ := (List.eq_nil_or_concat' rest).resolve_left hrest
  -- the last chunk has the last byte of a value in it
  obtain ⟨p, hp, c, hc, codes, hcodes⟩ := exists_last_queryCodes hpairs hne
  have hchunk : chunk = decodedByte c := by
    rw [hcodes, List.map_append, ← List.append_assoc] at hdone
    exact (List.singleton_inj.mp (List.append_inj_right' hdone rfl)).symm
  have hbyte : c ∈ decodedByte c := by
    unfold decodedByte
    split_ifs with hspace
    · exact hspace ▸ List.mem_cons_self ..
    · exact List.mem_cons_self ..
  have hpos : 0 < chunk.countP (undelimited items fields) := by
    refine List.countP_pos_iff.mpr ⟨c, hchunk ▸ hbyte, ?_⟩
    obtain ⟨hitem, hfield⟩ := (hfree p hp).2 c hc
    simp [undelimited, hitem, hfield]
  have hwhole := countP_joinPairs hamp heq hplus hfree
  rw [← flatten_chunks, hdone] at hwhole
  simp only [List.flatten_append, List.countP_append, List.flatten_cons, List.flatten_nil,
    List.append_nil] at hwhole
  have hfound := (length_pairTexts_le hdistinct h).trans (length_paramsOf_le done.flatten)
  omega

end Counting

/-! ## `GetParam` and the encoding -/

/-- The condition: no pair at all, or a NUL behind both delimiter characters, texts of ASCII that
are kept, and room for the decoded query, in which a space takes two bytes. -/
def Survives (stack : StackMemory) (pairs : List (Bytes × Bytes)) : Prop :=
  pairs = [] ∨
    ((0 ∈ stack.behindToken ∧ 0 ∈ stack.behindFtoken) ∧ AsciiPairs pairs ∧
      (∀ p ∈ pairs, Kept stack.items stack.fields p) ∧
      (joinPairs pairs).length + (joinPairs pairs).count 32 < maxElementSize)

/-- `url_encode` makes a query of the pairs, and with it as query string every list of calls of
`GetParam` gives the values of the pairs, and the empty string for names that are no key. -/
def Inverts (stack : StackMemory) (m : HttpMessage) (pairs : List (Bytes × Bytes)) : Prop :=
  ∃ query, encodeQuery pairs = .ok query ∧
    ∀ queryString : CharArray maxElementSize, queryString.Terminated → queryString.str = query →
      ∀ names, (∀ name ∈ names, ¬m.IsHeaderName name) →
        ∃ r, (ParamRequest.new { m with queryString }).getParams stack names =
          .ok (r, names.map fun name => (pairs.lookup name).getD [])

section Inverting

variable {stack : StackMemory} {m : HttpMessage} {pairs : List (Bytes × Bytes)}
  {queryString : CharArray maxElementSize}

theorem QueryPairs.withQuery (h : QueryPairs m pairs) (queryString : CharArray maxElementSize) :
    QueryPairs { m with queryString } pairs :=
  ⟨h.ne_nil, h.ne_zero, h.distinct, h.no_header, h.fits⟩

theorem HttpMessage.WellFormed.withQuery (hm : m.WellFormed) (h : queryString.Terminated) :
    HttpMessage.WellFormed { m with queryString } := { hm with queryString := h }

/-- Without a query only the headers are parameters. -/
theorem parseParam_empty (hm : m.WellFormed) (hquery : m.queryString.str = []) :
    ∃ param, parseParam stack m [] = .ok param ∧
      ∀ name, ¬m.IsHeaderName name → param.lookup name = none := by
  obtain ⟨param, hheaders, hlookup⟩ := headerParams_ok hm [] (i := 0) (Nat.zero_add _)
  refine ⟨param, ?_, hlookup⟩
  rw [parseParam, hheaders, CharArray.strlen_bytes hm.queryString, hquery]
  rfl

theorem inverts_of_lookup {query : Bytes} (hquery : encodeQuery pairs = .ok query)
    (h : ∀ queryString : CharArray maxElementSize, queryString.Terminated →
      queryString.str = query → ∃ param, parseParam stack { m with queryString } [] = .ok param ∧
        ∀ name, ¬m.IsHeaderName name → param.lookup name = pairs.lookup name) :
    Inverts stack m pairs := by
  refine ⟨query, hquery, fun queryString hterminated hstr names hnames => ?_⟩
  obtain ⟨param, hparse, hlookup⟩ := h queryString hterminated hstr
  obtain ⟨r, hget⟩ := getParams_new hparse names
  refine ⟨r, hget.trans ?_⟩
  have hvalues : names.map (fun name => (param.lookup name).getD []) =
      names.map fun name => (pairs.lookup name).getD [] :=
    List.map_congr_left fun name hname => by rw [hlookup name (hnames name hname)]
  rw [hvalues]

theorem inverts_of_survives (hm : m.WellFormed) (h : QueryPairs m pairs)
    (hsurvives : Survives stack pairs) : Inverts stack m pairs := by
  by_cases hpairs : pairs = []
  · subst hpairs
    exact inverts_of_lookup rfl fun queryString hterminated hstr =>
      parseParam_empty (hm.withQuery hterminated) hstr
  obtain ⟨hended, hascii, hkept, hroom⟩ := hsurvives.resolve_left hpairs
  have hfits : (joinPairs (decodedPairs pairs)).length < maxElementSize := by
    rwa [← decodedText_joinPairs, length_decodedText]
  -- the items of the decoded query are the pairs
  have hfound : paramsOf stack.items stack.fields (joinPairs (decodedPairs pairs)) = pairs := by
    rw [paramsOf_joinPairs stack.amp_mem_items, decodedPairs, List.flatMap_map]
    have hitems : ∀ p ∈ pairs, paramsOf stack.items stack.fields (decodedItem p) = [p] :=
      fun p hp => (hkept p hp).paramsOf_decodedItem stack.eq_mem_fields (h.ne_nil p hp)
    exact (List.flatMap_congr hitems).trans (List.flatMap_singleton' pairs)
  refine inverts_of_lookup (encodeQuery_eq h hascii) fun queryString hterminated hstr => ?_
  have hparse := parseParam_ok stack (hm.withQuery hterminated)
    (h.withQuery queryString) hascii hpairs hstr hended hfits
  rwa [hfound] at hparse

/-- Found pairs come from a query of ASCII between delimiters that end. -/
theorem exists_found_of_inverts (h : QueryPairs m pairs) (hpairs : pairs ≠ [])
    (hinverts : Inverts stack m pairs) :
    AsciiPairs pairs ∧ ∃ param, parseParam stack
      { m with queryString := .ofBytes maxElementSize (queryText pairs) } [] = .ok param ∧
        ∀ p ∈ pairs, param.lookup p.1 = some p.2 := by
  obtain ⟨query, hquery, hget⟩ := hinverts
  have hascii := ascii_of_encodeQuery h hquery
  have heq := Except.ok.inj ((encodeQuery_eq h hascii).symm.trans hquery)
  refine ⟨hascii, ?_⟩
  have hzero := ne_zero_of_mem_queryText h hascii
  -- all keys in one list of calls
  obtain ⟨p₀, rest, rfl⟩ := List.exists_cons_of_ne_nil hpairs
  obtain ⟨r, hvalues⟩ := hget (.ofBytes maxElementSize (queryText (p₀ :: rest)))
    (CharArray.terminated_ofBytes h.fits) ((CharArray.str_ofBytes h.fits hzero).trans heq)
    ((p₀ :: rest).map Prod.fst) fun name hname => by
      obtain ⟨p, hp, rfl⟩ := List.mem_map.mp hname
      exact h.no_header p hp
  obtain ⟨param, hparse, hsame⟩ := exists_of_getParams_new hvalues
  refine ⟨param, hparse, fun p hp => ?_⟩
  have hvalue : ((p₀ :: rest).lookup p.1).getD [] = (param.lookup p.1).getD [] :=
    List.map_inj_left.mp hsame p.1 (List.mem_map_of_mem hp)
  rw [lookup_of_mem h.distinct hp, Option.getD_some] at hvalue
  cases hlookup : param.lookup p.1 with
  | none =>
    rw [hlookup] at hvalue
    exact absurd hvalue (h.ne_nil p hp).2
  | some value =>
    rw [hlookup] at hvalue
    rw [hvalue]
    rfl

theorem survives_of_inverts (hm : m.WellFormed) (h : QueryPairs m pairs)
    (hinverts : Inverts stack m pairs) : Survives stack pairs := by
  by_cases hpairs : pairs = []
  · exact .inl hpairs
  obtain ⟨hascii, param, hparse, hfound⟩ := exists_found_of_inverts h hpairs hinverts
  have hm' := hm.withQuery (CharArray.terminated_ofBytes h.fits)
  have hquery := CharArray.str_ofBytes h.fits (ne_zero_of_mem_queryText h hascii)
  have h' := h.withQuery (.ofBytes maxElementSize (queryText pairs))
  obtain ⟨p₀, hp₀⟩ := List.exists_mem_of_ne_nil pairs hpairs
  obtain ⟨hended, done, rest, hdone, hlt, hmem⟩ := exists_of_parseParam hm' h' hascii hpairs hquery
    hparse (h.no_header p₀ hp₀) (hfound p₀ hp₀)
  have hdistinct : pairs.Nodup := List.Nodup.of_map _ h.distinct
  have hsub : pairs ⊆ paramsOf stack.items stack.fields done.flatten :=
    fun p hp => hmem p.1 p.2 (h.no_header p hp) (hfound p hp)
  have hamp := stack.amp_mem_items
  have heq := stack.eq_mem_fields
  refine .inr ⟨hended, hascii, ?_⟩
  rw [← length_decodedText, decodedText_joinPairs]
  by_cases hplus : 43 ∈ stack.items ∨ 43 ∈ stack.fields
  · have hrest := rest_eq_nil hamp heq hplus hpairs (fun p hp => (h.ne_nil p hp).2) hdistinct hdone
      hsub
    rw [hrest, List.append_nil] at hdone
    rw [← hdone, flatten_chunks] at hlt hsub
    exact ⟨kept_of_plus hamp heq hplus h.ne_nil hsub, hlt⟩
  · obtain ⟨hitems, hfields⟩ := not_or.mp hplus
    have hlonger : (joinPairs (decodedPairs pairs)).length ≤ (queryText pairs).length := by
      refine length_joinPairs_le fun p hp => ?_
      obtain ⟨hkey, hvalue⟩ := followed_of_mem_paramsOf hitems hfields (followed_chunks rest hdone)
        (hsub hp)
      exact ⟨length_decodedText_le hkey, length_decodedText_le hvalue⟩
    have hfits := hlonger.trans_lt h.fits
    -- so the whole query has been decoded here as well
    obtain ⟨param', hparse', hlookup⟩ := parseParam_ok stack hm' h' hascii hpairs hquery
      hended hfits
    have hwhole : pairs ⊆ paramsOf stack.items stack.fields (joinPairs (decodedPairs pairs)) := by
      intro p hp
      have hvalue := hlookup p.1 (h.no_header p hp)
      rw [← Except.ok.inj (hparse.symm.trans hparse'), hfound p hp] at hvalue
      exact mem_of_lookup hvalue.symm
    exact ⟨kept_of_no_plus hamp heq hitems hfields h.ne_nil hdistinct hwhole, hfits⟩

/-- **`GetParam` inverts the encoding** of exactly the pairs that survive. -/
theorem getParam_inverts_iff (stack : StackMemory) (hm : m.WellFormed) (h : QueryPairs m pairs) :
    Inverts stack m pairs ↔ Survives stack pairs :=
  ⟨survives_of_inverts hm h, inverts_of_survives hm h⟩

end Inverting

/-- A message without headers. -/
theorem queryPairs_init {pairs : List (Bytes × Bytes)} (hne : ∀ p ∈ pairs, p.1 ≠ [] ∧ p.2 ≠ [])
    (hzero : ∀ p ∈ pairs, (∀ c ∈ p.1, c ≠ 0) ∧ ∀ c ∈ p.2, c ≠ 0)
    (hdistinct : (pairs.map Prod.fst).Nodup) (hfits : (queryText pairs).length < maxElementSize) :
    QueryPairs HttpMessage.init pairs where
  ne_nil := hne
  ne_zero := hzero
  distinct := hdistinct
  no_header := fun _ _ ⟨_, hj, _⟩ => Nat.not_lt_zero _ hj
  fits := hfits

/-- Two pairs, one with a character that is encoded: `k=v&path=a%2Fb`. -/
def pathPairs : List (Bytes × Bytes) := [(ascii "k", ascii "v"), (ascii "path", ascii "a/b")]

theorem kept_pathPairs : ∀ p ∈ pathPairs, Kept [38] [61] p := by
  intro p hp
  obtain rfl | hp := List.mem_cons.mp hp
  · exact
      { separates := by decide
        free := by unfold Free; decide +kernel
        spaces := by unfold SpaceLast; decide }
  · rw [List.mem_singleton.mp hp]
    exact
      { separates := by decide
        free := by unfold Free; decide +kernel
        spaces := by unfold SpaceLast; decide }

theorem getParam_inverts_iff_path : Inverts ⟨[0], [0]⟩ HttpMessage.init pathPairs :=
  (getParam_inverts_iff ⟨[0], [0]⟩ building_init.toWellFormed
    (queryPairs_init (by decide +kernel) (by decide +kernel) (by decide +kernel)
      (by decide +kernel))).mpr
    (.inr ⟨by decide, by unfold AsciiPairs; decide +kernel, kept_pathPairs, by decide +kernel⟩)

/-- Of the value `a b`, encoded as `a+b`, `GetParam` makes `a +b`. -/
theorem getParam_keeps_plus :
    QueryPairs HttpMessage.init [(ascii "k", ascii "a b")] ∧
      encodeQuery [(ascii "k", ascii "a b")] = .ok (ascii "k=a+b") ∧
      (∃ r, (ParamRequest.new { HttpMessage.init with
          queryString := .ofBytes _ (ascii "k=a+b") }).getParams ⟨[0], [0]⟩ [ascii "k"] =
        .ok (r, [ascii "a +b"])) ∧
      ¬Inverts ⟨[0], [0]⟩ HttpMessage.init [(ascii "k", ascii "a b")] := by
  have hpairs : QueryPairs HttpMessage.init [(ascii "k", ascii "a b")] :=
    queryPairs_init (by simp; decide) (by simp; decide +kernel) (List.nodup_singleton _) (by decide)
  have hascii : AsciiPairs [(ascii "k", ascii "a b")] :=
    fun _ hp => List.mem_singleton.mp hp ▸ by decide +kernel
  -- the encoder writes a plus for the blank
  have htext : queryText [(ascii "k", ascii "a b")] = ascii "k=a+b" := by decide
  have hencode := encodeQuery_eq hpairs hascii
  have hterminated := CharArray.terminated_ofBytes (htext ▸ hpairs.fits)
  have hquery : (CharArray.ofBytes maxElementSize (ascii "k=a+b")).str = ascii "k=a+b" :=
    CharArray.str_ofBytes (htext ▸ hpairs.fits) (by decide +kernel)
  rw [htext] at hencode
  obtain ⟨param, hparse, hlookup⟩ := parseParam_ok ⟨[0], [0]⟩
    (building_init.toWellFormed.withQuery hterminated) (hpairs.withQuery _) hascii (by simp)
    (hquery.trans htext.symm) (by decide) (by decide)
  -- and the decoder keeps the plus in front of the blank
  have hvalue : param.lookup (ascii "k") = some (ascii "a +b") := by
    rw [hlookup _ (hpairs.no_header _ (List.mem_singleton_self _))]
    decide
  obtain ⟨r, hget⟩ := getParams_new hparse [ascii "k"]
  rw [List.map_singleton, hvalue, Option.getD_some] at hget
  refine ⟨hpairs, hencode, ⟨r, hget⟩, fun ⟨query, hquery', h⟩ => ?_⟩
  have hsame := Except.ok.inj (hencode.symm.trans hquery')
  obtain ⟨r', hget'⟩ := h _ hterminated (hquery.trans hsame) [ascii "k"]
    fun name hname => List.mem_singleton.mp hname ▸ hpairs.no_header _ (List.mem_singleton_self _)
  have hvalues : [ascii "a +b"] =
      [ascii "k"].map fun name => ([(ascii "k", ascii "a b")].lookup name).getD [] :=
    congrArg Prod.snd (Except.ok.inj (hget.symm.trans hget'))
  exact absurd hvalues (by decide)

end Sails.Net
