import Sails.Net.Http.Params.Decoded

/-!
# Splitting a decoded query

- `Kept`: the pairs that are found again in the decoded query
- `paramsOf_decodedItem`, `kept_of_mem_decodedItem`: they are, and no others where a `+` separates
- `length_paramsOf_le`: what is found is not longer than what is no delimiter
-/

namespace Sails.Net

open CMemory
open Sails.Base
open Tokens

section Splitting

variable {items fields str : Bytes} {pairs : List (Bytes × Bytes)} {p : Bytes × Bytes}

/-- None of the bytes is a delimiter. -/
def Free (items fields s : Bytes) : Prop := ∀ c ∈ s, c ∉ items ∧ c ∉ fields

/-! ## One item after the other -/

theorem paramsOf_nil : paramsOf items fields [] = [] := by
  rw [paramsOf, tokens_nil]
  rfl

theorem paramsOf_append_cons (fields : Bytes) {d : UInt8} (hd : d ∈ items) (a b : Bytes) :
    paramsOf items fields (a ++ d :: b) = paramsOf items fields a ++ paramsOf items fields b := by
  have hcut := tokens_append_cons (p := fun b => items.contains b) (d := d)
    (List.contains_iff_mem.mpr hd) a b
  rw [paramsOf, hcut, List.filterMap_append]
  rfl

/-- The items of a query are split each for itself. -/
theorem paramsOf_joinPairs (hamp : 38 ∈ items) (pairs : List (Bytes × Bytes)) :
    paramsOf items fields (joinPairs pairs) =
      pairs.flatMap fun p => paramsOf items fields (p.1 ++ ascii "=" ++ p.2) := by
  induction pairs with
  | nil => exact paramsOf_nil
  | cons p pairs ih =>
    cases pairs with
    | nil => rw [joinPairs_single, List.flatMap_cons, List.flatMap_nil, List.append_nil]
    | cons p' pairs =>
      have hcut := paramsOf_append_cons fields hamp (p.1 ++ ascii "=" ++ p.2)
        (joinPairs (p' :: pairs))
      rw [joinPairs_cons_cons, List.append_assoc _ (ascii "&"), List.flatMap_cons, ← ih]
      exact hcut

theorem tokens_free {delims s : Bytes} (hne : s ≠ []) (h : ∀ c ∈ s, c ∉ delims) :
    tokens (fun b => delims.contains b) s = [s] :=
  tokens_eq_single hne fun c hc => by simpa using h c hc

/-- A text without delimiters of items is one item. -/
theorem paramsOf_single (hne : str ≠ []) (h : ∀ c ∈ str, c ∉ items) :
    paramsOf items fields str =
      (fieldPair (tokens (fun b => fields.contains b) str)).toList := by
  rw [paramsOf, tokens_free hne h, List.filterMap_cons]
  cases fieldPair (tokens (fun b => fields.contains b) str) <;> rfl

/-- Without a delimiter of fields inside an item there is no pair. -/
theorem paramsOf_eq_nil (h : ∀ c ∈ str, c ∈ fields → c ∈ items) :
    paramsOf items fields str = [] := by
  refine List.filterMap_eq_nil_iff.mpr fun item hitem => ?_
  have hfree : ∀ c ∈ item, c ∉ fields := by
    intro c hc hfield
    have hnot := not_of_mem_tokens hitem c hc
    have hin := h c (mem_of_mem_tokens hitem c hc) hfield
    simp [hin] at hnot
  rw [tokens_free (ne_nil_of_mem_tokens hitem) hfree]
  rfl

/-- The fields of a text with a `=` inside. -/
theorem tokens_pair {delims : Bytes} (heq : 61 ∈ delims) (key value : Bytes) :
    tokens (fun b => delims.contains b) (key ++ ascii "=" ++ value) =
      tokens (fun b => delims.contains b) key ++ tokens (fun b => delims.contains b) value := by
  have hcut := tokens_append_cons (p := fun b => delims.contains b) (d := 61)
    (List.contains_iff_mem.mpr heq) key value
  rw [List.append_assoc]
  exact hcut

theorem not_mem_item (key value : Bytes) {delims : Bytes} (heq : 61 ∉ delims) (hkey : ∀ c ∈ key, c ∉ delims)
    (hvalue : ∀ c ∈ value, c ∉ delims) : ∀ c ∈ key ++ ascii "=" ++ value, c ∉ delims := by
  intro c hc
  rcases List.mem_append.mp hc with hc | hc
  · rcases List.mem_append.mp hc with hc | hc
    · exact hkey c hc
    · exact List.mem_singleton.mp hc ▸ heq
  · exact hvalue c hc

/-- **One item** of texts without delimiters. -/
theorem paramsOf_item (heq : 61 ∈ fields) (hne : p.1 ≠ [] ∧ p.2 ≠ [])
    (hfree : Free items fields p.1 ∧ Free items fields p.2) :
    paramsOf items fields (p.1 ++ ascii "=" ++ p.2) = if 61 ∈ items then [] else [p] := by
  by_cases hitems : 61 ∈ items
  -- the item falls apart before its fields are looked for
  · rw [if_pos hitems]
    refine paramsOf_eq_nil fun c hc hfield => ?_
    rcases List.mem_append.mp hc with hc | hc
    · rcases List.mem_append.mp hc with hc | hc
      · exact absurd hfield (hfree.1 c hc).2
      · exact List.mem_singleton.mp hc ▸ hitems
    · exact absurd hfield (hfree.2 c hc).2
  · have hwhole := not_mem_item _ _ hitems (fun c hc => (hfree.1 c hc).1) fun c hc => (hfree.2 c hc).1
    rw [if_neg hitems, paramsOf_single (by simp [hne.2]) hwhole, tokens_pair heq,
      tokens_free hne.1 fun c hc => (hfree.1 c hc).2,
      tokens_free hne.2 fun c hc => (hfree.2 c hc).2]
    rfl

theorem tokens_of_fieldPair {l : List Bytes} (h : fieldPair l = some p) : l = [p.1, p.2] := by
  unfold fieldPair at h
  split at h
  · cases h
    rfl
  · cases h

/-- A pair is found as two fields of an item. -/
theorem exists_item_of_mem_paramsOf (hp : p ∈ paramsOf items fields str) :
    ∃ item ∈ tokens (fun b => items.contains b) str,
      p.1 ∈ tokens (fun b => fields.contains b) item ∧
        p.2 ∈ tokens (fun b => fields.contains b) item := by
  obtain ⟨item, hitem, hpair⟩ := List.mem_filterMap.mp hp
  have hfields := tokens_of_fieldPair hpair
  refine ⟨item, hitem, ?_, ?_⟩
  · rw [hfields]
    exact List.mem_cons_self ..
  · rw [hfields]
    exact List.mem_cons_of_mem _ (List.mem_cons_self ..)

/-! ## Decoded texts -/

/-- A text that ends at a space, if it has one, where a `+` separates. -/
theorem tokens_decodedText {delims s : Bytes} (hplus : 43 ∈ delims) (hne : s ≠ [])
    (hfree : ∀ c ∈ s, c ∉ delims) (hlast : 32 ∉ s.dropLast) :
    tokens (fun b => delims.contains b) (decodedText s) = [s] := by
  rw [decodedText_of_not_mem_dropLast hlast]
  split_ifs
  · rw [tokens_concat (List.contains_iff_mem.mpr hplus), tokens_free hne hfree]
  · exact tokens_free hne hfree

/-- A decoded text has no other bytes than the text and the `+` behind its spaces. -/
theorem mem_of_mem_decodedText {s : Bytes} {c : UInt8} (hc : c ∈ decodedText s) :
    c ∈ s ∨ c = 43 := by
  obtain ⟨x, hx, hc⟩ := List.mem_flatMap.mp hc
  unfold decodedByte at hc
  split_ifs at hc with hspace
  · rcases List.mem_cons.mp hc with rfl | hc
    · exact .inl (hspace ▸ hx)
    · exact .inr (List.mem_singleton.mp hc)
  · exact .inl (List.mem_singleton.mp hc ▸ hx)

theorem not_mem_decodedText {delims s : Bytes} (hplus : 43 ∉ delims) (h : ∀ c ∈ s, c ∉ delims) :
    ∀ c ∈ decodedText s, c ∉ delims := fun c hc =>
  (mem_of_mem_decodedText hc).elim (h c) fun hc => hc ▸ hplus

theorem decodedText_ne_nil {s : Bytes} (h : s ≠ []) : decodedText s ≠ [] := by
  have hlen := length_decodedText s
  have hpos := List.length_pos_of_ne_nil h
  exact List.ne_nil_of_length_pos (by omega)

/-- The decoded item of a pair. -/
def decodedItem (p : Bytes × Bytes) : Bytes := decodedText p.1 ++ ascii "=" ++ decodedText p.2

/-- Spaces at the ends of the texts only. -/
def SpaceLast (p : Bytes × Bytes) : Prop := 32 ∉ p.1.dropLast ∧ 32 ∉ p.2.dropLast

/-- With a `+` among the delimiters of items a key that ends at a space loses its value. -/
theorem paramsOf_decodedItem_of_items (heq : 61 ∈ fields) (hitems : 61 ∉ items) (hplus : 43 ∈ items)
    (hne : p.1 ≠ [] ∧ p.2 ≠ []) (hfree : Free items fields p.1 ∧ Free items fields p.2)
    (hlast : SpaceLast p) :
    paramsOf items fields (decodedItem p) = if 32 ∈ p.1 then [] else [p] := by
  -- the `+` behind the value does not matter
  have hvalue : paramsOf items fields (decodedItem p) =
      paramsOf items fields (decodedText p.1 ++ ascii "=" ++ p.2) := by
    rw [decodedItem, decodedText_of_not_mem_dropLast hlast.2]
    split_ifs
    · rw [← List.append_assoc, paramsOf_append_cons fields hplus, paramsOf_nil, List.append_nil]
    · rfl
  rw [hvalue, decodedText_of_not_mem_dropLast hlast.1]
  split_ifs with hspace
  · have hkey : paramsOf items fields p.1 = [] :=
      paramsOf_eq_nil fun c hc hfield => absurd hfield (hfree.1 c hc).2
    have hrest : paramsOf items fields (ascii "=" ++ p.2) = [] := by
      have hwhole := not_mem_item [] p.2 hitems (fun c hc => absurd hc List.not_mem_nil)
        fun c hc => (hfree.2 c hc).1
      have hfields := tokens_pair heq [] p.2
      rw [List.nil_append] at hwhole hfields
      rw [paramsOf_single (by simp [hne.2]) hwhole, hfields, tokens_nil,
        tokens_free hne.2 fun c hc => (hfree.2 c hc).2]
      rfl
    have hcut := paramsOf_append_cons fields hplus p.1 (ascii "=" ++ p.2)
    rw [hkey, hrest] at hcut
    rw [List.append_assoc, List.append_assoc]
    exact hcut
  · rw [paramsOf_item heq hne hfree, if_neg hitems]

/-- With a `+` among the delimiters of fields only, texts that end at a space are found. -/
theorem paramsOf_decodedItem_of_fields (heq : 61 ∈ fields) (hitems : 43 ∉ items)
    (hplus : 43 ∈ fields) (hne : p.1 ≠ [] ∧ p.2 ≠ [])
    (hfree : Free items fields p.1 ∧ Free items fields p.2) (hlast : SpaceLast p) :
    paramsOf items fields (decodedItem p) = if 61 ∈ items then [] else [p] := by
  have hkeyItem := not_mem_decodedText hitems fun c hc => (hfree.1 c hc).1
  have hvalueItem := not_mem_decodedText hitems fun c hc => (hfree.2 c hc).1
  have hkey := tokens_decodedText hplus hne.1 (fun c hc => (hfree.1 c hc).2) hlast.1
  have hvalue := tokens_decodedText hplus hne.2 (fun c hc => (hfree.2 c hc).2) hlast.2
  split_ifs with hseparates
  -- key and value are items of one field each
  · have hcut := paramsOf_append_cons fields hseparates (decodedText p.1)
      (decodedText p.2)
    rw [paramsOf_single (decodedText_ne_nil hne.1) hkeyItem,
      paramsOf_single (decodedText_ne_nil hne.2) hvalueItem, hkey, hvalue] at hcut
    rw [decodedItem, List.append_assoc]
    exact hcut
  · rw [decodedItem, paramsOf_single (by simp [decodedText_ne_nil hne.2])
      (not_mem_item _ _ hseparates hkeyItem hvalueItem), tokens_pair heq, hkey, hvalue]
    rfl

/-- Without a `+` among the delimiters the decoded texts are found. -/
theorem paramsOf_decodedItem (heq : 61 ∈ fields) (hitems : 43 ∉ items) (hfields : 43 ∉ fields)
    (hne : p.1 ≠ [] ∧ p.2 ≠ []) (hfree : Free items fields p.1 ∧ Free items fields p.2) :
    paramsOf items fields (decodedItem p) =
      if 61 ∈ items then [] else [(decodedText p.1, decodedText p.2)] := by
  have hdecoded : ∀ {s : Bytes}, Free items fields s → Free items fields (decodedText s) :=
    fun h c hc => ⟨not_mem_decodedText hitems (fun x hx => (h x hx).1) c hc,
      not_mem_decodedText hfields (fun x hx => (h x hx).2) c hc⟩
  exact paramsOf_item (p := (decodedText p.1, decodedText p.2)) heq
    ⟨decodedText_ne_nil hne.1, decodedText_ne_nil hne.2⟩ ⟨hdecoded hfree.1, hdecoded hfree.2⟩

/-! ## The pairs that are kept -/

/-- Texts without delimiters and without spaces; where a `+` separates, a space may end a text, but
not a key that is then cut off from its value. -/
structure Kept (items fields : Bytes) (p : Bytes × Bytes) : Prop where
  separates : 61 ∉ items
  free : Free items fields p.1 ∧ Free items fields p.2
  spaces : if 43 ∈ items then 32 ∉ p.1 ∧ 32 ∉ p.2.dropLast
    else if 43 ∈ fields then SpaceLast p else 32 ∉ p.1 ∧ 32 ∉ p.2

theorem not_mem_dropLast {s : Bytes} {c : UInt8} (h : c ∉ s) : c ∉ s.dropLast :=
  fun hc => h ((List.dropLast_sublist s).subset hc)

/-- A pair that is kept is what its decoded item is split into. -/
theorem Kept.paramsOf_decodedItem (h : Kept items fields p) (heq : 61 ∈ fields)
    (hne : p.1 ≠ [] ∧ p.2 ≠ []) : paramsOf items fields (decodedItem p) = [p] := by
  obtain ⟨hseparates, hfree, hspaces⟩ := h
  by_cases hitems : 43 ∈ items
  · rw [if_pos hitems] at hspaces
    rw [paramsOf_decodedItem_of_items heq hseparates hitems hne hfree
      ⟨not_mem_dropLast hspaces.1, hspaces.2⟩, if_neg hspaces.1]
  rw [if_neg hitems] at hspaces
  by_cases hfields : 43 ∈ fields
  · rw [if_pos hfields] at hspaces
    rw [paramsOf_decodedItem_of_fields heq hitems hfields hne hfree hspaces, if_neg hseparates]
  · rw [if_neg hfields] at hspaces
    rw [Sails.Net.paramsOf_decodedItem heq hitems hfields hne hfree, if_neg hseparates,
      decodedText_of_not_mem hspaces.1, decodedText_of_not_mem hspaces.2]

/-- Where a `+` separates, what is found of a pair is the pair, and it is kept. -/
theorem kept_of_mem_decodedItem {q : Bytes × Bytes} (heq : 61 ∈ fields)
    (hplus : 43 ∈ items ∨ 43 ∈ fields) (hne : p.1 ≠ [] ∧ p.2 ≠ [])
    (hfree : Free items fields p.1 ∧ Free items fields p.2) (hlast : SpaceLast p)
    (hq : q ∈ paramsOf items fields (decodedItem p)) : q = p ∧ Kept items fields p := by
  by_cases hitems : 43 ∈ items
  · by_cases hseparates : 61 ∈ items
    -- every delimiter of fields is one of items
    · rw [paramsOf_eq_nil] at hq
      · cases hq
      · have htext : ∀ {s : Bytes}, Free items fields s →
            ∀ c ∈ decodedText s, c ∈ fields → c ∈ items := fun h c hc hfield =>
          (mem_of_mem_decodedText hc).elim (fun hc => absurd hfield (h c hc).2)
            fun hc => hc ▸ hitems
        intro c hc hfield
        rcases List.mem_append.mp hc with hc | hc
        · rcases List.mem_append.mp hc with hc | hc
          · exact htext hfree.1 c hc hfield
          · exact List.mem_singleton.mp hc ▸ hseparates
        · exact htext hfree.2 c hc hfield
    · rw [paramsOf_decodedItem_of_items heq hseparates hitems hne hfree hlast] at hq
      split_ifs at hq with hspace
      · cases hq
      · exact ⟨List.mem_singleton.mp hq, hseparates, hfree, by
          rw [if_pos hitems]
          exact ⟨hspace, hlast.2⟩⟩
  · have hfields := hplus.resolve_left hitems
    rw [paramsOf_decodedItem_of_fields heq hitems hfields hne hfree hlast] at hq
    split_ifs at hq with hseparates
    · cases hq
    · exact ⟨List.mem_singleton.mp hq, hseparates, hfree, by rwa [if_neg hitems, if_pos hfields]⟩

/-! ## What is found of any text -/

/-- What is found is free of delimiters. -/
theorem free_of_mem_paramsOf (hp : p ∈ paramsOf items fields str) :
    Free items fields p.1 ∧ Free items fields p.2 := by
  obtain ⟨item, hitem, hkey, hvalue⟩ := exists_item_of_mem_paramsOf hp
  have hfree : ∀ t ∈ tokens (fun b => fields.contains b) item, Free items fields t := by
    intro t ht c hc
    have hinItem := not_of_mem_tokens hitem c (mem_of_mem_tokens ht c hc)
    have hinField := not_of_mem_tokens ht c hc
    exact ⟨by simpa using hinItem, by simpa using hinField⟩
  exact ⟨hfree _ hkey, hfree _ hvalue⟩

/-- A `+` behind every space is behind the spaces of what is found, where it does not separate. -/
theorem followed_of_mem_paramsOf (hitems : 43 ∉ items) (hfields : 43 ∉ fields)
    (h : Followed 32 43 str) (hp : p ∈ paramsOf items fields str) :
    Followed 32 43 p.1 ∧ Followed 32 43 p.2 := by
  obtain ⟨item, hitem, hkey, hvalue⟩ := exists_item_of_mem_paramsOf hp
  have hinItem := h.of_mem_tokens (by simpa using hitems) hitem
  exact ⟨hinItem.of_mem_tokens (by simpa using hfields) hkey,
    hinItem.of_mem_tokens (by simpa using hfields) hvalue⟩

/-- Where it separates, spaces are only at the ends. -/
theorem spaceLast_of_mem_paramsOf (hplus : 43 ∈ items ∨ 43 ∈ fields) (h : Followed 32 43 str)
    (hp : p ∈ paramsOf items fields str) : SpaceLast p := by
  obtain ⟨item, hitem, hkey, hvalue⟩ := exists_item_of_mem_paramsOf hp
  by_cases hitems : 43 ∈ items
  · have hlast := h.not_mem_dropLast (List.contains_iff_mem.mpr hitems) hitem
    exact ⟨not_mem_dropLast_of_mem_tokens hlast hkey, not_mem_dropLast_of_mem_tokens hlast hvalue⟩
  · have hinItem := h.of_mem_tokens (by simpa using hitems) hitem
    have hfields := List.contains_iff_mem.mpr (hplus.resolve_left hitems)
    exact ⟨hinItem.not_mem_dropLast hfields hkey, hinItem.not_mem_dropLast hfields hvalue⟩

/-! ## How much is found -/

/-- All keys and values. -/
def pairTexts (pairs : List (Bytes × Bytes)) : Bytes := pairs.flatMap fun p => p.1 ++ p.2

theorem pairTexts_cons (p : Bytes × Bytes) (pairs : List (Bytes × Bytes)) :
    pairTexts (p :: pairs) = p.1 ++ p.2 ++ pairTexts pairs := List.flatMap_cons

/-- No delimiter of items or fields. -/
def undelimited (items fields : Bytes) (c : UInt8) : Bool := !items.contains c && !fields.contains c

/-- What is found is not longer than what is no delimiter. -/
theorem length_paramsOf_le (str : Bytes) :
    (pairTexts (paramsOf items fields str)).length ≤ str.countP (undelimited items fields) := by
  have hitems : ∀ l : List Bytes, (pairTexts (l.filterMap fun item =>
      fieldPair (tokens (fun b => fields.contains b) item))).length ≤
        l.flatten.countP fun c => !fields.contains c := by
    intro l
    induction l with
    | nil => exact Nat.le_refl 0
    | cons item l ih =>
      rw [List.filterMap_cons, List.flatten_cons, List.countP_append]
      cases hpair : fieldPair (tokens (fun b => fields.contains b) item) with
      | none => exact ih.trans (Nat.le_add_left ..)
      | some p =>
        have hlen := congrArg List.length (flatten_tokens (p := fun b => fields.contains b) item)
        rw [tokens_of_fieldPair hpair, ← List.countP_eq_length_filter] at hlen
        simp only [List.flatten_cons, List.flatten_nil, List.append_nil, List.length_append] at hlen
        simp only [pairTexts_cons, List.length_append]
        omega
  have hcount := hitems (tokens (fun b => items.contains b) str)
  rw [flatten_tokens, List.countP_filter] at hcount
  refine hcount.trans (Nat.le_of_eq (List.countP_congr fun c _ => ?_))
  rw [undelimited, Bool.and_comm]

theorem countP_of_free {s : Bytes} (h : Free items fields s) :
    s.countP (undelimited items fields) = s.length := by
  refine List.countP_eq_length.mpr fun c hc => ?_
  obtain ⟨hitem, hfield⟩ := h c hc
  simp [undelimited, hitem, hfield]

theorem countP_delimiter {c : UInt8} (h : c ∈ items ∨ c ∈ fields) :
    [c].countP (undelimited items fields) = 0 := by
  rcases h with h | h <;> simp [undelimited, h]

/-- Of a decoded text all that is no delimiter is the text, where a `+` separates. -/
theorem countP_decodedText (hplus : 43 ∈ items ∨ 43 ∈ fields) {s : Bytes}
    (h : Free items fields s) :
    (decodedText s).countP (undelimited items fields) = s.length := by
  have hdelim := countP_delimiter hplus
  induction s with
  | nil => rfl
  | cons c s ih =>
    have hhead := countP_of_free (s := [c]) fun x hx =>
      h x (List.mem_singleton.mp hx ▸ List.mem_cons_self ..)
    have hrest := ih fun x hx => h x (List.mem_cons_of_mem _ hx)
    rw [decodedText_cons, List.countP_append, hrest, List.length_cons, Nat.add_comm]
    congr 1
    unfold decodedByte
    split_ifs with hspace
    -- the `+` is a delimiter
    · have hpair : ([c] ++ [43]).countP (undelimited items fields) = 1 := by
        rw [List.countP_append, hhead, hdelim]
        rfl
      rwa [hspace] at hpair
    · exact hhead

theorem countP_joinPairs (hamp : 38 ∈ items) (heq : 61 ∈ fields) (hplus : 43 ∈ items ∨ 43 ∈ fields)
    (hfree : ∀ p ∈ pairs, Free items fields p.1 ∧ Free items fields p.2) :
    (joinPairs (decodedPairs pairs)).countP (undelimited items fields) =
      (pairTexts pairs).length := by
  have hjoin : (ascii "&").countP (undelimited items fields) = 0 := countP_delimiter (.inl hamp)
  have hbind : (ascii "=").countP (undelimited items fields) = 0 := countP_delimiter (.inr heq)
  have hitem : ∀ p ∈ pairs, (decodedText p.1 ++ ascii "=" ++ decodedText p.2).countP
      (undelimited items fields) = (p.1 ++ p.2).length := by
    intro p hp
    rw [List.countP_append, List.countP_append, hbind, countP_decodedText hplus (hfree p hp).1,
      countP_decodedText hplus (hfree p hp).2, List.length_append]
    rfl
  induction pairs with
  | nil => rfl
  | cons p pairs ih =>
    have hrest := ih (fun x hx => hfree x (List.mem_cons_of_mem _ hx))
      fun x hx => hitem x (List.mem_cons_of_mem _ hx)
    have hhead := hitem p (List.mem_cons_self ..)
    cases pairs with
    | nil =>
      rw [decodedPairs, List.map_cons, List.map_nil, joinPairs_single, pairTexts_cons]
      exact hhead.trans (congrArg List.length (List.append_nil _).symm)
    | cons p' pairs =>
      rw [joinPairs_decodedPairs_cons, List.countP_append, List.countP_append, hrest, hhead, hjoin,
        pairTexts_cons p, Nat.add_zero]
      exact List.length_append.symm

end Splitting

end Sails.Net
