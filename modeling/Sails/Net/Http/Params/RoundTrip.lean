import Sails.Base.UrlCoding.Encoding
import Sails.Net.Http.Params

/-!
# What `GetParam` finds of an encoded query

- `paramsOf`: what two levels of splitting make of a decoded query
- `encodeQuery_eq`, `ascii_of_encodeQuery`: pairs of ASCII are encoded, and no others
-/

namespace Sails.Net

open TransitionRun (Fault ok_of_bind)
open CMemory
open Sails.Base
open Tokens

/-! ## Collecting the parameters -/

theorem lookup_foldl_insertParam (param pairs : List (Bytes × Bytes)) (name : Bytes) :
    (pairs.foldl insertParam param).lookup name = (param.lookup name).or (pairs.lookup name) := by
  -- by induction on the pairs: the first one of a name stays
  induction pairs generalizing param with
  | nil => simp
  | cons p pairs ih =>
    obtain ⟨key, value⟩ := p
    rw [List.foldl_cons, ih, List.lookup_cons]
    by_cases hname : name = key
    · subst hname
      by_cases hthere : (param.lookup name).isSome
      · rw [insertParam, if_pos hthere]
        obtain ⟨v, hv⟩ := Option.isSome_iff_exists.mp hthere
        simp [hv]
      · rw [insertParam, if_neg hthere, List.lookup_append]
        rw [Bool.not_eq_true, Option.isSome_eq_false_iff, Option.isNone_iff_eq_none] at hthere
        simp [hthere]
    · have hbeq : (name == key) = false := by simpa using hname
      rw [hbeq]
      unfold insertParam
      split_ifs
      · rfl
      · rw [List.lookup_append, List.lookup_cons, hbeq]
        simp

theorem stringOf_splice {l s : Bytes} (hs : ∀ c ∈ s, c ≠ 0) :
    stringOf (splice l 0 (s ++ [0])) = .ok s := by
  have hshape : splice l 0 (s ++ [0]) = s ++ 0 :: l.drop (0 + (s ++ [0]).length) := by
    rw [splice, List.take_zero, List.nil_append, List.append_assoc]
    rfl
  rw [hshape, stringOf, strlen_append_zero hs]
  exact congrArg Except.ok List.take_left

theorem stringOf_bytes {n : Nat} {a : CharArray n} (ha : a.Terminated) :
    stringOf a.bytes = .ok a.str := by
  rw [stringOf, CharArray.strlen_bytes ha]
  exact congrArg Except.ok a.take_length_str

/-- The name of a header of the message. -/
def HttpMessage.IsHeaderName (m : HttpMessage) (name : Bytes) : Prop :=
  ∃ j : Fin maxHeaders, (j : Nat) < m.numHeaders.toNat ∧ (m.headers j).name.str = name

/-- The headers are collected without a fault, and under their own names only. -/
theorem headerParams_ok {m : HttpMessage} (hm : m.WellFormed) (param : List (Bytes × Bytes))
    {i remaining : Nat} (hi : i + remaining = m.numHeaders.toNat) :
    ∃ param', headerParams m param i remaining = .ok param' ∧
      ∀ name, ¬m.IsHeaderName name → param'.lookup name = param.lookup name := by
  -- by induction on the headers, whose names are not the one looked up
  induction remaining generalizing param i with
  | zero => exact ⟨param, rfl, fun _ _ => rfl⟩
  | succ remaining ih =>
    have hmax : i < maxHeaders := by
      have hle := hm.numHeaders_le
      omega
    obtain ⟨param', hrest, hlookup⟩ := ih
      (insertParam param ((m.headers ⟨i, hmax⟩).name.str, (m.headers ⟨i, hmax⟩).value.str))
      (i := i + 1) (by omega)
    refine ⟨param', ?_, fun name hname => ?_⟩
    · simp only [headerParams, headerAt_natCast hmax, stringOf_bytes (hm.name _),
        stringOf_bytes (hm.value _), bind, Except.bind]
      exact hrest
    · have hne : name ≠ (m.headers ⟨i, hmax⟩).name.str := fun h =>
        hname ⟨⟨i, hmax⟩, by simp only; omega, h.symm⟩
      have hinsert := lookup_foldl_insertParam param
        [((m.headers ⟨i, hmax⟩).name.str, (m.headers ⟨i, hmax⟩).value.str)] name
      have hbeq : (name == (m.headers ⟨i, hmax⟩).name.str) = false := by simpa using hne
      rw [List.foldl_cons, List.foldl_nil, List.lookup_cons, hbeq] at hinsert
      rw [hlookup name hname, hinsert]
      simp

/-! ## Items and fields -/

/-- An item with two fields. -/
def fieldPair : List Bytes → Option (Bytes × Bytes)
  | [key, value] => some (key, value)
  | _ => none

/-- The parameters of a decoded query, with the delimiters of items and of fields. -/
def paramsOf (items fields str : Bytes) : List (Bytes × Bytes) :=
  (tokens (fun b => items.contains b) str).filterMap fun item =>
    fieldPair (tokens (fun b => fields.contains b) item)

/-- The bytes `split` takes for delimiters of items: the `&` and what follows it. -/
def StackMemory.items (stack : StackMemory) : Bytes := text (ascii "&" ++ stack.behindToken)

/-- The delimiters of fields. -/
def StackMemory.fields (stack : StackMemory) : Bytes := text (ascii "=" ++ stack.behindFtoken)

theorem length_text_lt_iff_mem {l : Bytes} : (text l).length < l.length ↔ 0 ∈ l := by
  constructor
  · intro h
    obtain ⟨r, hr⟩ := eq_text_append_of_lt h
    rw [hr]
    simp
  · intro h
    rcases Nat.lt_or_ge (text l).length l.length with hlt | hge
    · exact hlt
    · have hself : text l = l := (text_isPrefix l).eq_of_length_le hge
      exact absurd rfl (ne_zero_of_mem_text (hself.symm ▸ h))

theorem mem_behind {c : UInt8} (hc : c ≠ 0) {behind : Bytes} : 0 ∈ [c] ++ behind ↔ 0 ∈ behind := by
  simp [Ne.symm hc]

theorem split_token (stack : StackMemory) {str : Bytes} (hstr : ∀ c ∈ str, c ≠ 0) :
    split str (ascii "&" ++ stack.behindToken) =
      if 0 ∈ stack.behindToken then .ok (tokens (fun b => stack.items.contains b) str)
      else .error .outOfBounds := by
  rw [split_eq, text_eq_self hstr]
  exact if_congr (length_text_lt_iff_mem.trans (mem_behind (by decide))) rfl rfl

theorem split_ftoken (stack : StackMemory) {str : Bytes} (hstr : ∀ c ∈ str, c ≠ 0) :
    split str (ascii "=" ++ stack.behindFtoken) =
      if 0 ∈ stack.behindFtoken then .ok (tokens (fun b => stack.fields.contains b) str)
      else .error .outOfBounds := by
  rw [split_eq, text_eq_self hstr]
  exact if_congr (length_text_lt_iff_mem.trans (mem_behind (by decide))) rfl rfl

theorem queryParams_eq {stack : StackMemory} (hended : 0 ∈ stack.behindFtoken)
    (param : List (Bytes × Bytes)) {items : List Bytes}
    (hitems : ∀ item ∈ items, ∀ c ∈ item, c ≠ 0) :
    queryParams stack param items = .ok ((items.filterMap fun item =>
      fieldPair (tokens (fun b => stack.fields.contains b) item)).foldl insertParam param) := by
  induction items generalizing param with
  | nil => rfl
  | cons item items ih =>
    have hrest := fun param => ih param fun x hx => hitems x (List.mem_cons_of_mem _ hx)
    rw [queryParams, split_ftoken stack (hitems item (List.mem_cons_self ..)), if_pos hended,
      List.filterMap_cons]
    simp only [bind, Except.bind]
    split
    · rename_i key value hfields
      rw [hfields, hrest]
      rfl
    · rename_i hfields
      have hnone : fieldPair (tokens (fun b => stack.fields.contains b) item) = none := by
        unfold fieldPair
        split
        · rename_i key value h
          exact absurd h (hfields key value)
        · rfl
      rw [hnone, hrest]

/-! ## Lists of results -/

section Results

variable {α β ε : Type} {f : α → Except ε β} {l : List α}

theorem mapM_eq_map {g : α → β} (h : ∀ x ∈ l, f x = .ok (g x)) : l.mapM f = .ok (l.map g) := by
  induction l with
  | nil => rfl
  | cons x l ih =>
    rw [List.mapM_cons, h x (List.mem_cons_self ..), ih fun y hy => h y (List.mem_cons_of_mem _ hy)]
    rfl

theorem exists_of_mapM {ys : List β} (h : l.mapM f = .ok ys) : ∀ x ∈ l, ∃ y, f x = .ok y := by
  induction l generalizing ys with
  | nil => exact fun x hx => absurd hx List.not_mem_nil
  | cons x l ih =>
    rw [List.mapM_cons] at h
    obtain ⟨y, hx, h⟩ := ok_of_bind h
    obtain ⟨ys, hl, -⟩ := ok_of_bind h
    intro x' hx'
    rcases List.mem_cons.mp hx' with rfl | hx'
    · exact ⟨y, hx⟩
    · exact ih hl x' hx'

end Results

/-! ## The encoded query -/

/-- `key1=value1&key2=value2&...`. -/
def joinPairs (pairs : List (Bytes × Bytes)) : Bytes :=
  (ascii "&").intercalate (pairs.map fun p => p.1 ++ ascii "=" ++ p.2)

theorem joinPairs_cons_cons (p p' : Bytes × Bytes) (pairs : List (Bytes × Bytes)) :
    joinPairs (p :: p' :: pairs) =
      p.1 ++ ascii "=" ++ p.2 ++ ascii "&" ++ joinPairs (p' :: pairs) := by
  rw [joinPairs, List.map_cons, List.map_cons, List.intercalate_cons_cons, joinPairs, List.map_cons]

theorem joinPairs_single (p : Bytes × Bytes) : joinPairs [p] = p.1 ++ ascii "=" ++ p.2 := by
  rw [joinPairs, List.map_cons, List.map_nil, List.intercalate_singleton]

/-- The query with every text encoded. -/
def queryText (pairs : List (Bytes × Bytes)) : Bytes :=
  joinPairs (pairs.map fun p => (encodedText p.1, encodedText p.2))

theorem length_encodedText_le (s : Bytes) : (encodedText s).length ≤ 3 * s.length := by
  induction s with
  | nil => exact Nat.le_refl 0
  | cons c s ih =>
    have hthree : (encodedByte c).length ≤ 3 := by
      unfold encodedByte
      split_ifs <;> simp
    rw [encodedText] at ih
    rw [encodedText, List.flatMap_cons, List.length_append, List.length_cons]
    omega

/-- The texts of a query are shorter than it. -/
theorem length_le_queryText {pairs : List (Bytes × Bytes)} {p : Bytes × Bytes} (hp : p ∈ pairs) :
    p.1.length ≤ (queryText pairs).length ∧ p.2.length ≤ (queryText pairs).length := by
  have hkey := length_le_encodedText p.1
  have hvalue := length_le_encodedText p.2
  have hitem : (encodedText p.1 ++ ascii "=" ++ encodedText p.2).length ≤
      (queryText pairs).length := by
    induction pairs with
    | nil => cases hp
    | cons p' pairs ih =>
      cases pairs with
      | nil =>
        rw [List.mem_singleton.mp hp, queryText, List.map_cons, List.map_nil, joinPairs_single]
      | cons p'' pairs =>
        rw [queryText, List.map_cons, List.map_cons, joinPairs_cons_cons]
        rcases List.mem_cons.mp hp with rfl | hp
        · simp only [List.length_append]
          omega
        · have hrest := ih hp
          rw [queryText, List.map_cons] at hrest
          simp only [List.length_append] at hrest ⊢
          omega
  simp only [List.length_append] at hitem
  omega

/-- A text without NUL passed through `url_encode`. -/
theorem urlEncode_start {s : Bytes} (hs : ∀ c ∈ s, c ≠ 0) (hlength : s.length < 2 ^ 31) :
    urlEncode (s ++ [0]) (List.replicate (3 * s.length + 1) 0) (3 * s.length + 1 : Nat) =
      urlEncodeFrom (3 * s.length + 1 : Nat) (List.replicate (3 * s.length + 1) 0) 0 s := by
  rw [urlEncode_eq hs [], toInt32_of_lt hlength, if_neg (by omega), looked_eq hlength]

theorem ne_zero_of_mem_encodedText {s : Bytes} (hs : ∀ c ∈ s, c ≠ 0) (hascii : ∀ c ∈ s, c < 128) :
    ∀ c ∈ encodedText s, c ≠ 0 := by
  intro c hc
  obtain ⟨x, hx, hc⟩ := List.mem_flatMap.mp hc
  exact (decodes_byte (hs x hx) (hascii x hx)).ne_zero c hc

theorem urlEncoded_eq {s : Bytes} (hs : ∀ c ∈ s, c ≠ 0) (hlength : s.length < 2 ^ 31)
    (hascii : ∀ c ∈ s, c < 128) : urlEncoded s = .ok (encodedText s) := by
  have hle := length_encodedText_le s
  rw [urlEncoded, urlEncode_start hs hlength,
    urlEncodeFrom_eq (by rw [List.length_replicate]) hascii (by omega)]
  exact stringOf_splice (ne_zero_of_mem_encodedText hs hascii)

theorem urlEncoded_of_not_ascii {s : Bytes} (hs : ∀ c ∈ s, c ≠ 0) (hlength : s.length < 2 ^ 31)
    (hascii : ∃ c ∈ s, ¬c < 128) : urlEncoded s = .error .outOfBounds := by
  have hle := length_encodedText_le s
  rw [urlEncoded, urlEncode_start hs hlength,
    urlEncodeFrom_of_not_ascii (by rw [List.length_replicate]) hascii (by omega)]
  rfl

/-! ## The pairs of the claim -/

/-- Texts that are not empty and without NUL, with distinct keys none of which is a header name,
whose encoded query fits `query_string`. -/
structure QueryPairs (m : HttpMessage) (pairs : List (Bytes × Bytes)) : Prop where
  ne_nil : ∀ p ∈ pairs, p.1 ≠ [] ∧ p.2 ≠ []
  ne_zero : ∀ p ∈ pairs, (∀ c ∈ p.1, c ≠ 0) ∧ ∀ c ∈ p.2, c ≠ 0
  distinct : (pairs.map Prod.fst).Nodup
  no_header : ∀ p ∈ pairs, ¬m.IsHeaderName p.1
  fits : (queryText pairs).length < maxElementSize

/-- All bytes are below 0x80. -/
def AsciiPairs (pairs : List (Bytes × Bytes)) : Prop :=
  ∀ p ∈ pairs, (∀ c ∈ p.1, c < 128) ∧ ∀ c ∈ p.2, c < 128

section Encoding

variable {m : HttpMessage} {pairs : List (Bytes × Bytes)}

theorem QueryPairs.length_lt (h : QueryPairs m pairs) {p : Bytes × Bytes} (hp : p ∈ pairs) :
    p.1.length < 2 ^ 31 ∧ p.2.length < 2 ^ 31 := by
  have hle := length_le_queryText hp
  have hfits := h.fits
  have hsize : maxElementSize = 2048 := rfl
  omega

theorem encodeItem_eq (h : QueryPairs m pairs) {p : Bytes × Bytes} (hp : p ∈ pairs)
    (hascii : (∀ c ∈ p.1, c < 128) ∧ ∀ c ∈ p.2, c < 128) :
    encodeItem p = .ok (encodedText p.1 ++ ascii "=" ++ encodedText p.2) := by
  have hkey := urlEncoded_eq (h.ne_zero p hp).1 (h.length_lt hp).1 hascii.1
  have hvalue := urlEncoded_eq (h.ne_zero p hp).2 (h.length_lt hp).2 hascii.2
  simp only [encodeItem, hkey, hvalue, bind, Except.bind]
  rfl

/-- A pair with other bytes is not encoded. -/
theorem ascii_of_encodeItem (h : QueryPairs m pairs) {p : Bytes × Bytes} (hp : p ∈ pairs)
    {item : Bytes} (hitem : encodeItem p = .ok item) :
    (∀ c ∈ p.1, c < 128) ∧ ∀ c ∈ p.2, c < 128 := by
  by_cases hkey : ∀ c ∈ p.1, c < 128
  · refine ⟨hkey, ?_⟩
    by_contra hvalue
    have hfault := urlEncoded_of_not_ascii (h.ne_zero p hp).2 (h.length_lt hp).2
      (by simpa using hvalue)
    rw [encodeItem, urlEncoded_eq (h.ne_zero p hp).1 (h.length_lt hp).1 hkey, hfault] at hitem
    cases hitem
  · have hfault := urlEncoded_of_not_ascii (h.ne_zero p hp).1 (h.length_lt hp).1
      (by simpa using hkey)
    rw [encodeItem, hfault] at hitem
    cases hitem

theorem encodeQuery_eq (h : QueryPairs m pairs) (hascii : AsciiPairs pairs) :
    encodeQuery pairs = .ok (queryText pairs) := by
  have hitems := mapM_eq_map fun p hp => encodeItem_eq h hp (hascii p hp)
  rw [encodeQuery, hitems, queryText, joinPairs, List.map_map]
  rfl

theorem ascii_of_encodeQuery (h : QueryPairs m pairs) {query : Bytes}
    (hquery : encodeQuery pairs = .ok query) : AsciiPairs pairs := by
  intro p hp
  cases hitems : pairs.mapM encodeItem with
  | error fault =>
    rw [encodeQuery, hitems] at hquery
    cases hquery
  | ok items =>
    obtain ⟨item, hitem⟩ := exists_of_mapM hitems p hp
    exact ascii_of_encodeItem h hp hitem

end Encoding

end Sails.Net
