import Sails.Net.Http.Params.RoundTrip

/-!
# What `url_decode` makes of an encoded query

- `queryCodes`: the codes one behind the other; `decodes_queryCodes`: `url_decode` reads them
- `length_decodedText`, `length_decodedText_le`: how long the decoded texts are
-/

namespace Sails.Net

open TransitionRun (Fault)
open CMemory
open Sails.Base
open Tokens

/-! ## The codes of a query -/

def byteCode (c : UInt8) : Code := (encodedByte c, decodedByte c)

/-- A separator stands for itself. -/
def separator (c : UInt8) : Code := ([c], [c])

def itemCodes (p : Bytes × Bytes) : List Code :=
  p.1.map byteCode ++ separator 61 :: p.2.map byteCode

/-- The codes of the query of these pairs. -/
def queryCodes : List (Bytes × Bytes) → List Code
  | [] => []
  | [p] => itemCodes p
  | p :: p' :: pairs => itemCodes p ++ separator 38 :: queryCodes (p' :: pairs)

/-- What is left of a text that was encoded and decoded. -/
def decodedText (s : Bytes) : Bytes := s.flatMap decodedByte

def decodedPairs (pairs : List (Bytes × Bytes)) : List (Bytes × Bytes) :=
  pairs.map fun p => (decodedText p.1, decodedText p.2)

theorem mem_queryCodes {pairs : List (Bytes × Bytes)} {code : Code} (h : code ∈ queryCodes pairs) :
    (∃ p ∈ pairs, ∃ c, (c ∈ p.1 ∨ c ∈ p.2) ∧ code = byteCode c) ∨
      code = separator 61 ∨ code = separator 38 := by
  have hitem : ∀ p : Bytes × Bytes, code ∈ itemCodes p →
      (∃ c, (c ∈ p.1 ∨ c ∈ p.2) ∧ code = byteCode c) ∨ code = separator 61 := by
    intro p hcode
    rcases List.mem_append.mp hcode with hkey | hvalue
    · obtain ⟨c, hc, rfl⟩ := List.mem_map.mp hkey
      exact .inl ⟨c, .inl hc, rfl⟩
    · rcases List.mem_cons.mp hvalue with hsep | hvalue
      · exact .inr hsep
      · obtain ⟨c, hc, rfl⟩ := List.mem_map.mp hvalue
        exact .inl ⟨c, .inr hc, rfl⟩
  induction pairs with
  | nil => cases h
  | cons p pairs ih =>
    cases pairs with
    | nil => exact (hitem p h).imp (fun hc => ⟨p, List.mem_cons_self .., hc⟩) .inl
    | cons p' pairs =>
      rcases List.mem_append.mp h with hcode | hrest
      · exact (hitem p hcode).imp (fun hc => ⟨p, List.mem_cons_self .., hc⟩) .inl
      · rcases List.mem_cons.mp hrest with hsep | hrest
        · exact .inr (.inr hsep)
        · exact (ih hrest).imp (fun ⟨q, hq, hc⟩ => ⟨q, List.mem_cons_of_mem _ hq, hc⟩) id

/-- The texts the codes stand for, before and after decoding. -/
theorem flatten_queryCodes {π : Code → Bytes} (hsep : ∀ c, π (separator c) = [c])
    (pairs : List (Bytes × Bytes)) :
    ((queryCodes pairs).map π).flatten =
      joinPairs (pairs.map fun p =>
        (p.1.flatMap fun c => π (byteCode c), p.2.flatMap fun c => π (byteCode c))) := by
  have hitem : ∀ p : Bytes × Bytes, ((itemCodes p).map π).flatten =
      (p.1.flatMap fun c => π (byteCode c)) ++ ascii "=" ++ p.2.flatMap fun c => π (byteCode c) := by
    intro p
    rw [itemCodes, List.map_append, List.map_cons, List.flatten_append, List.flatten_cons, hsep,
      List.map_map, List.map_map, ← List.flatMap_def, ← List.flatMap_def, ← List.append_assoc]
    rfl
  induction pairs with
  | nil => rfl
  | cons p pairs ih =>
    cases pairs with
    | nil => rw [queryCodes, hitem, List.map_cons, List.map_nil, joinPairs_single]
    | cons p' pairs =>
      rw [queryCodes, List.map_append, List.map_cons, List.flatten_append, List.flatten_cons, hitem,
        hsep, ih]
      simp only [List.map_cons, joinPairs_cons_cons, List.append_assoc]
      rfl

theorem flatten_codes (pairs : List (Bytes × Bytes)) :
    ((queryCodes pairs).map Prod.fst).flatten = queryText pairs :=
  flatten_queryCodes (fun _ => rfl) pairs

theorem flatten_chunks (pairs : List (Bytes × Bytes)) :
    ((queryCodes pairs).map Prod.snd).flatten = joinPairs (decodedPairs pairs) :=
  flatten_queryCodes (fun _ => rfl) pairs

/-- A decoded byte: every space is followed by a `+`. -/
theorem followed_decodedByte (c : UInt8) : Followed 32 43 (decodedByte c) := by
  unfold decodedByte
  split_ifs with hspace
  · simp [Followed]
  · simp [Followed, hspace]

/-- Any chunks one behind the other: every space is followed by a `+`. -/
theorem followed_chunks {pairs : List (Bytes × Bytes)} {done : List Bytes} (rest : List Bytes)
    (h : (queryCodes pairs).map Prod.snd = done ++ rest) : Followed 32 43 done.flatten := by
  have hall : ∀ chunk ∈ done, Followed 32 43 chunk := by
    intro chunk hchunk
    have hmem : chunk ∈ (queryCodes pairs).map Prod.snd := h ▸ List.mem_append_left _ hchunk
    obtain ⟨code, hcode, rfl⟩ := List.mem_map.mp hmem
    rcases mem_queryCodes hcode with ⟨p, -, c, -, rfl⟩ | rfl | rfl
    · exact followed_decodedByte c
    · simp [separator, Followed]
    · simp [separator, Followed]
  clear h
  induction done with
  | nil => trivial
  | cons chunk done ih =>
    exact (hall chunk (List.mem_cons_self ..)).append
      (ih fun x hx => hall x (List.mem_cons_of_mem _ hx))

/-- The last code is that of a byte of a value. -/
theorem exists_last_queryCodes {pairs : List (Bytes × Bytes)} (hpairs : pairs ≠ [])
    (hne : ∀ p ∈ pairs, p.2 ≠ []) :
    ∃ p ∈ pairs, ∃ c ∈ p.2, ∃ codes, queryCodes pairs = codes ++ [byteCode c] := by
  induction pairs with
  | nil => exact absurd rfl hpairs
  | cons p pairs ih =>
    cases pairs with
    | nil =>
      obtain ⟨value, c, hlast⟩ :=
        (List.eq_nil_or_concat' p.2).resolve_left (hne p (List.mem_cons_self ..))
      refine ⟨p, List.mem_cons_self .., c, by simp [hlast],
        p.1.map byteCode ++ separator 61 :: value.map byteCode, ?_⟩
      rw [queryCodes, itemCodes, hlast, List.map_append, List.append_assoc]
      rfl
    | cons p' pairs =>
      obtain ⟨q, hq, c, hc, codes, hcodes⟩ :=
        ih (List.cons_ne_nil _ _) fun x hx => hne x (List.mem_cons_of_mem _ hx)
      refine ⟨q, List.mem_cons_of_mem _ hq, c, hc, itemCodes p ++ separator 38 :: codes, ?_⟩
      rw [queryCodes, hcodes, List.append_assoc]
      rfl

section Codes

variable {m : HttpMessage} {pairs : List (Bytes × Bytes)}

theorem decodes_queryCodes (h : QueryPairs m pairs) (hascii : AsciiPairs pairs) :
    ∀ code ∈ queryCodes pairs, Decodes code.1 code.2 := by
  intro code hcode
  rcases mem_queryCodes hcode with ⟨p, hp, c, hc, rfl⟩ | rfl | rfl
  · obtain ⟨hkey, hvalue⟩ := h.ne_zero p hp
    obtain ⟨hkey', hvalue'⟩ := hascii p hp
    rcases hc with hc | hc
    · exact decodes_byte (hkey c hc) (hkey' c hc)
    · exact decodes_byte (hvalue c hc) (hvalue' c hc)
  · exact .plain (by decide) (by decide) (by decide)
  · exact .plain (by decide) (by decide) (by decide)

/-- No NUL is decoded. -/
theorem chunks_ne_zero (h : QueryPairs m pairs) {done : List Bytes} (rest : List Bytes)
    (hdone : (queryCodes pairs).map Prod.snd = done ++ rest) : ∀ c ∈ done.flatten, c ≠ 0 := by
  intro b hb
  obtain ⟨chunk, hchunk, hb⟩ := List.mem_flatten.mp hb
  have hmem : chunk ∈ (queryCodes pairs).map Prod.snd := hdone ▸ List.mem_append_left _ hchunk
  obtain ⟨code, hcode, rfl⟩ := List.mem_map.mp hmem
  rcases mem_queryCodes hcode with ⟨p, hp, c, hc, rfl⟩ | rfl | rfl
  · have hne : c ≠ 0 := hc.elim ((h.ne_zero p hp).1 c) ((h.ne_zero p hp).2 c)
    by_cases hspace : c = 32
    · have hbyte : b ∈ ([32, 43] : Bytes) := by simpa [byteCode, decodedByte, hspace] using hb
      rcases List.mem_cons.mp hbyte with rfl | hbyte
      · decide
      · rw [List.mem_singleton.mp hbyte]
        decide
    · have hbyte : b = c := by simpa [byteCode, decodedByte, hspace] using hb
      exact hbyte ▸ hne
  · rw [List.mem_singleton.mp hb]
    decide
  · rw [List.mem_singleton.mp hb]
    decide

end Codes

/-! ## Decoded texts -/

theorem decodedText_cons (c : UInt8) (s : Bytes) :
    decodedText (c :: s) = decodedByte c ++ decodedText s := List.flatMap_cons

theorem decodedText_append (s t : Bytes) :
    decodedText (s ++ t) = decodedText s ++ decodedText t := List.flatMap_append

theorem decodedText_of_not_mem {s : Bytes} (h : 32 ∉ s) : decodedText s = s := by
  induction s with
  | nil => rfl
  | cons c s ih =>
    obtain ⟨hc, hs⟩ := not_or.mp (mt List.mem_cons.mpr h)
    rw [decodedText_cons, ih hs, decodedByte, if_neg (Ne.symm hc)]
    rfl

/-- A text with a space at its end only. -/
theorem decodedText_of_not_mem_dropLast {s : Bytes} (h : 32 ∉ s.dropLast) :
    decodedText s = if 32 ∈ s then s ++ [43] else s := by
  split_ifs with hspace
  · obtain ⟨t, c, rfl⟩ := (List.eq_nil_or_concat' s).resolve_left (List.ne_nil_of_mem hspace)
    rw [List.dropLast_concat] at h
    have hc : c = 32 := by
      rcases List.mem_append.mp hspace with ht | hc
      · exact absurd ht h
      · exact (List.mem_singleton.mp hc).symm
    rw [decodedText_append, decodedText_of_not_mem h, hc, List.append_assoc]
    rfl
  · exact decodedText_of_not_mem hspace

theorem joinPairs_decodedPairs_cons (p p' : Bytes × Bytes) (pairs : List (Bytes × Bytes)) :
    joinPairs (decodedPairs (p :: p' :: pairs)) =
      decodedText p.1 ++ ascii "=" ++ decodedText p.2 ++ ascii "&" ++
        joinPairs (decodedPairs (p' :: pairs)) := joinPairs_cons_cons ..

/-- Separators stay. -/
theorem decodedText_joinPairs (pairs : List (Bytes × Bytes)) :
    decodedText (joinPairs pairs) = joinPairs (decodedPairs pairs) := by
  induction pairs with
  | nil => rfl
  | cons p pairs ih =>
    cases pairs with
    | nil =>
      rw [decodedPairs, List.map_cons, List.map_nil, joinPairs_single, joinPairs_single,
        decodedText_append, decodedText_append]
      rfl
    | cons p' pairs =>
      rw [joinPairs_cons_cons, decodedText_append, ih, decodedText_append, decodedText_append,
        decodedText_append, joinPairs_decodedPairs_cons]
      rfl

/-! ## Lengths -/

theorem length_decodedText (s : Bytes) : (decodedText s).length = s.length + s.count 32 := by
  induction s with
  | nil => rfl
  | cons c s ih =>
    rw [decodedText_cons, List.length_append, ih, List.length_cons, decodedByte]
    by_cases hspace : c = 32
    · rw [if_pos hspace, hspace, List.count_cons_self]
      simp only [List.length_cons, List.length_nil]
      omega
    · rw [if_neg hspace, List.count_cons_of_ne hspace]
      simp only [List.length_cons, List.length_nil]
      omega

/-- A `+` takes three characters in the code. -/
theorem length_encodedText_ge (s : Bytes) :
    s.length + 2 * s.count 43 ≤ (encodedText s).length := by
  induction s with
  | nil => exact Nat.le_refl 0
  | cons c s ih =>
    have hcons : encodedText (c :: s) = encodedByte c ++ encodedText s := List.flatMap_cons
    rw [hcons, List.length_append, List.length_cons]
    by_cases hplus : c = 43
    · have hthree : (encodedByte 43).length = 3 := by decide
      rw [hplus, List.count_cons_self, hthree]
      omega
    · have hone : 1 ≤ (encodedByte c).length := by
        unfold encodedByte
        split_ifs <;> simp
      rw [List.count_cons_of_ne hplus]
      omega

/-- With a `+` behind each of its spaces a text is not longer than its code. -/
theorem length_decodedText_le {s : Bytes} (h : Followed 32 43 s) :
    (decodedText s).length ≤ (encodedText s).length := by
  have hcount := h.count_le (by decide)
  have hcode := length_encodedText_ge s
  rw [length_decodedText]
  omega

theorem length_joinPairs_le {f g : Bytes → Bytes} {pairs : List (Bytes × Bytes)}
    (h : ∀ p ∈ pairs, (f p.1).length ≤ (g p.1).length ∧ (f p.2).length ≤ (g p.2).length) :
    (joinPairs (pairs.map fun p => (f p.1, f p.2))).length ≤
      (joinPairs (pairs.map fun p => (g p.1, g p.2))).length := by
  induction pairs with
  | nil => exact Nat.le_refl _
  | cons p pairs ih =>
    obtain ⟨hkey, hvalue⟩ := h p (List.mem_cons_self ..)
    have hrest := ih fun x hx => h x (List.mem_cons_of_mem _ hx)
    cases pairs with
    | nil =>
      simp only [List.map_cons, List.map_nil, joinPairs_single, List.length_append]
      omega
    | cons p' pairs =>
      simp only [List.map_cons] at hrest
      simp only [List.map_cons, joinPairs_cons_cons, List.length_append]
      omega

end Sails.Net
