import Sails.Base.UrlCoding.Bounds

/-!
# The case of the digits in an escape (`base/string.cc`)

- `SameButDigitCase`: two strings of whole escapes that differ in the case of digits only
- `decodedPart`: what `url_decode` makes of the codes that start before a given position
- `EscapesDiffer`: two escapes that differ, behind equal text that is not decoded to a NUL

`FromHexChar` gives 32 for a small letter. An escape with one is then never decoded to the byte of
the same digits in capitals, so that only what is not decoded, or stands behind a NUL, can differ.
-/

namespace Sails.Base

open TransitionRun (Fault)
open CMemory

/-! ## Digits -/

/-- The hexadecimal digits of either case. -/
def hexDigits : Bytes := ascii "0123456789ABCDEFabcdef"

/-- The byte an escape is decoded to. -/
def escapeByte (high low : UInt8) : UInt8 := (fromHexChar high * 16 + fromHexChar low).toUInt8

/-- A small letter of the digits. -/
def SmallDigit (c : UInt8) : Prop := 97 ≤ c ∧ c ≤ 102

instance (c : UInt8) : Decidable (SmallDigit c) := inferInstanceAs (Decidable (_ ∧ _))

/-- The escapes that are decoded to NUL: `%00`, `%a0` to `%f0`, and `%Ea` to `%Ef`. -/
def NulEscape (high low : UInt8) : Prop :=
  ((high = 48 ∨ SmallDigit high) ∧ low = 48) ∨ (high = 69 ∧ SmallDigit low)

instance (high low : UInt8) : Decidable (NulEscape high low) :=
  inferInstanceAs (Decidable (_ ∨ _))

theorem ne_of_mem_hexDigits : ∀ c ∈ hexDigits, c ≠ 0 ∧ c ≠ 37 := by decide +kernel

theorem fromHexChar_of_mem : ∀ c ∈ hexDigits, fromHexChar c < 16 ∨ fromHexChar c = 32 := by
  decide +kernel

/-- Of two digits that differ in their case, one counts as 32 and the other from 10 to 15. -/
theorem fromHexChar_of_toLower : ∀ c ∈ hexDigits, ∀ d ∈ hexDigits, toLower c = toLower d →
    c = d ∨ (fromHexChar c = 32 ∧ 10 ≤ fromHexChar d ∧ fromHexChar d < 16) ∨
      (fromHexChar d = 32 ∧ 10 ≤ fromHexChar c ∧ fromHexChar c < 16) := by
  decide +kernel

theorem escapeByte_eq_zero_iff : ∀ high ∈ hexDigits, ∀ low ∈ hexDigits,
    (escapeByte high low = 0 ↔ NulEscape high low) := by
  decide +kernel

/-- **No two escapes of different case are decoded to one byte.** -/
theorem escapeByte_injective {high low high' low' : UInt8} (hhigh : high ∈ hexDigits)
    (hlow : low ∈ hexDigits) (hhigh' : high' ∈ hexDigits) (hlow' : low' ∈ hexDigits)
    (hcase : toLower high = toLower high') (hcase' : toLower low = toLower low')
    (h : escapeByte high low = escapeByte high' low') : high = high' ∧ low = low' := by
  have hmod := congrArg UInt8.toNat h
  simp only [escapeByte, Nat.toUInt8, UInt8.toNat_ofNat'] at hmod
  have hvalue := fromHexChar_of_mem low hlow
  have hvalue' := fromHexChar_of_mem high hhigh
  -- a small letter moves the first digit by 160 to 240, the second by 17 to 22
  rcases fromHexChar_of_toLower high hhigh high' hhigh' hcase with hsame | hdiffer | hdiffer <;>
    rcases fromHexChar_of_toLower low hlow low' hlow' hcase' with hsame' | hdiffer' | hdiffer'
  · exact ⟨hsame, hsame'⟩
  · rw [hsame] at hmod
    omega
  · rw [hsame] at hmod
    omega
  · rw [hsame'] at hmod
    omega
  · omega
  · omega
  · rw [hsame'] at hmod
    omega
  · omega
  · omega

/-! ## Strings of whole escapes -/

/-- Every `%` is followed by two digits. -/
inductive WholeEscapes : Bytes → Prop
  | nil : WholeEscapes []
  | plain {c : UInt8} {s : Bytes} (hzero : c ≠ 0) (hpercent : c ≠ 37) (h : WholeEscapes s) :
      WholeEscapes (c :: s)
  | escape {high low : UInt8} {s : Bytes} (hhigh : high ∈ hexDigits) (hlow : low ∈ hexDigits)
      (h : WholeEscapes s) : WholeEscapes (37 :: high :: low :: s)

/-- **Two strings that differ in the case of digits**, in each of which every `%` is followed by two
digits. -/
inductive SameButDigitCase : Bytes → Bytes → Prop
  | nil : SameButDigitCase [] []
  | plain {c : UInt8} {s s' : Bytes} (hzero : c ≠ 0) (hpercent : c ≠ 37)
      (h : SameButDigitCase s s') : SameButDigitCase (c :: s) (c :: s')
  | escape {high low high' low' : UInt8} {s s' : Bytes} (hhigh : high ∈ hexDigits)
      (hlow : low ∈ hexDigits) (hhigh' : high' ∈ hexDigits) (hlow' : low' ∈ hexDigits)
      (hcase : toLower high = toLower high') (hcase' : toLower low = toLower low')
      (h : SameButDigitCase s s') :
      SameButDigitCase (37 :: high :: low :: s) (37 :: high' :: low' :: s')

/-- The two decoded texts are the same. -/
def SameText (s s' behind behind' buffer : Bytes) : Prop :=
  ∃ d d', urlDecode (s ++ 0 :: behind) buffer buffer.length = .ok d ∧
    urlDecode (s' ++ 0 :: behind') buffer buffer.length = .ok d' ∧ text d = text d'

/-- Two escapes that differ start before position `left`, behind the same text without an escape
that is decoded to a NUL. -/
def EscapesDiffer (left : Nat) (s s' : Bytes) : Prop :=
  ∃ front high low high' low' rest rest', s = front ++ 37 :: high :: low :: rest ∧
    s' = front ++ 37 :: high' :: low' :: rest' ∧ ¬(high = high' ∧ low = low') ∧
    front.length < left ∧ ∀ x y, NulEscape x y → ¬[37, x, y] <:+: front

theorem SameButDigitCase.whole {s s' : Bytes} (h : SameButDigitCase s s') :
    WholeEscapes s ∧ WholeEscapes s' := by
  induction h with
  | nil => exact ⟨.nil, .nil⟩
  | plain hzero hpercent h ih => exact ⟨.plain hzero hpercent ih.1, .plain hzero hpercent ih.2⟩
  | escape hhigh hlow hhigh' hlow' hcase hcase' h ih =>
    exact ⟨.escape hhigh hlow ih.1, .escape hhigh' hlow' ih.2⟩

theorem SameButDigitCase.length_eq {s s' : Bytes} (h : SameButDigitCase s s') :
    s.length = s'.length := by
  induction h with
  | nil => rfl
  | plain hzero hpercent h ih => rw [List.length_cons, List.length_cons, ih]
  | escape hhigh hlow hhigh' hlow' hcase hcase' h ih => simp only [List.length_cons, ih]

/-- A byte that is in no escape stands as often in the one string as in the other. -/
theorem SameButDigitCase.count_eq {s s' : Bytes} (h : SameButDigitCase s s') {c : UInt8}
    (hc : c ∉ hexDigits) : s.count c = s'.count c := by
  induction h with
  | nil => rfl
  | plain hzero hpercent h ih => rw [List.count_cons, List.count_cons, ih]
  | escape hhigh hlow hhigh' hlow' hcase hcase' h ih =>
    have hne {d : UInt8} (hd : d ∈ hexDigits) : d ≠ c := fun heq => hc (heq ▸ hd)
    rw [List.count_cons, List.count_cons_of_ne (hne hhigh), List.count_cons_of_ne (hne hlow),
      List.count_cons, List.count_cons_of_ne (hne hhigh'), List.count_cons_of_ne (hne hlow'), ih]

theorem WholeEscapes.ne_zero {s : Bytes} (h : WholeEscapes s) : ∀ c ∈ s, c ≠ 0 := by
  induction h with
  | nil => simp
  | plain hzero hpercent h ih => exact List.forall_mem_cons.mpr ⟨hzero, ih⟩
  | escape hhigh hlow h ih =>
    have hnone : (37 : UInt8) ≠ 0 := by decide
    exact List.forall_mem_cons.mpr ⟨hnone, List.forall_mem_cons.mpr
      ⟨(ne_of_mem_hexDigits _ hhigh).1, List.forall_mem_cons.mpr
        ⟨(ne_of_mem_hexDigits _ hlow).1, ih⟩⟩⟩

/-! ## The decoded part -/

/-- The bytes of one character that is not in an escape. -/
def plainChunk (c : UInt8) : Bytes := if c = 43 then [32, 43] else [c]

/-- The bytes of the codes that start before position `left`. -/
def decodedPart : Nat → Bytes → Bytes
  | left + 1, c :: high :: low :: s =>
    if c = 37 then escapeByte high low :: decodedPart (left - 2) s
    else plainChunk c ++ decodedPart left (high :: low :: s)
  | left + 1, c :: s => plainChunk c ++ decodedPart left s
  | _, _ => []
termination_by _ s => s.length

theorem decodedPart_zero (s : Bytes) : decodedPart 0 s = [] := by
  rw [decodedPart]
  · simp
  · simp

theorem decodedPart_plain {c : UInt8} (hpercent : c ≠ 37) (left : Nat) (s : Bytes) :
    decodedPart (left + 1) (c :: s) = plainChunk c ++ decodedPart left s := by
  match s with
  | [] => rw [decodedPart]; simp
  | [_] => rw [decodedPart]; simp
  | _ :: _ :: _ => rw [decodedPart, if_neg hpercent]

theorem decodedPart_escape (high low : UInt8) (left : Nat) (s : Bytes) :
    decodedPart (left + 1) (37 :: high :: low :: s) =
      escapeByte high low :: decodedPart (left - 2) s := by
  rw [decodedPart, if_pos rfl]

theorem decodes_plain {c : UInt8} (hzero : c ≠ 0) (hpercent : c ≠ 37) :
    Decodes [c] (plainChunk c) := by
  by_cases hplus : c = 43
  · rw [plainChunk, if_pos hplus, hplus]
    exact .plus
  · rw [plainChunk, if_neg hplus]
    exact .plain hzero hplus hpercent

theorem ne_zero_of_mem_plainChunk {c : UInt8} (hzero : c ≠ 0) : ∀ b ∈ plainChunk c, b ≠ 0 := by
  intro b hb
  unfold plainChunk at hb
  split_ifs at hb
  · rcases List.mem_pair.mp hb with rfl | rfl <;> decide
  · rw [List.mem_singleton.mp hb]
    exact hzero

/-- The decoded part needs a byte for each character, one more for each `+` and two less for each
escape. -/
theorem length_decodedPart_le {s : Bytes} (h : WholeEscapes s) (left : Nat) :
    (decodedPart left s).length + 2 * s.count 37 ≤ s.length + s.count 43 := by
  have hcount {s : Bytes} (h : WholeEscapes s) : 2 * s.count 37 ≤ s.length + s.count 43 := by
    induction h with
    | nil => simp
    | @plain c s hzero hpercent h ih =>
      rw [List.count_cons_of_ne hpercent, List.length_cons, List.count_cons]
      omega
    | @escape high low s hhigh hlow h ih =>
      rw [List.count_cons_self, List.count_cons_of_ne (ne_of_mem_hexDigits _ hhigh).2,
        List.count_cons_of_ne (ne_of_mem_hexDigits _ hlow).2]
      simp only [List.length_cons, List.count_cons]
      omega
  induction h generalizing left with
  | nil => simp [decodedPart]
  | @plain c s hzero hpercent h ih =>
    cases left with
    | zero =>
      have hall := hcount (.plain hzero hpercent h)
      rw [decodedPart_zero, List.length_nil]
      omega
    | succ left =>
      have hrest := ih left
      rw [decodedPart_plain hpercent, List.length_append, List.count_cons_of_ne hpercent,
        List.length_cons]
      by_cases hplus : c = 43
      · rw [plainChunk, if_pos hplus, hplus, List.count_cons_self]
        simp only [List.length_cons, List.length_nil]
        omega
      · rw [plainChunk, if_neg hplus, List.count_cons_of_ne hplus, List.length_singleton]
        omega
  | @escape high low s hhigh hlow h ih =>
    cases left with
    | zero =>
      have hall := hcount (.escape hhigh hlow h)
      rw [decodedPart_zero, List.length_nil]
      omega
    | succ left =>
      have hrest := ih (left - 2)
      rw [decodedPart_escape, List.count_cons_self,
        List.count_cons_of_ne (ne_of_mem_hexDigits _ hhigh).2,
        List.count_cons_of_ne (ne_of_mem_hexDigits _ hlow).2]
      simp only [List.length_cons, List.count_cons]
      omega

/-! ## The loop -/

section Loop

variable {s buffer before behind : Bytes} {size total index fuel : Nat}

/-- A code with room for its bytes, and what is decoded behind it. -/
theorem urlDecodeFrom_step {code chunk rest : Bytes} (hcode : Decodes code chunk)
    (hlt : before.length < total) (hint : before.length + code.length ≤ 2 ^ 31)
    (hsize : size ≤ buffer.length) (hroom : index + chunk.length + 1 ≤ size)
    (hrun : urlDecodeFrom ((before ++ code) ++ s ++ behind) total size (splice buffer index chunk)
      (index + chunk.length) (before ++ code).length fuel =
      .ok (splice (splice buffer index chunk) (index + chunk.length) rest)) :
    urlDecodeFrom (before ++ (code ++ s) ++ behind) total size buffer index before.length
      (fuel + 1) = .ok (splice buffer index (chunk ++ rest)) := by
  have hpos := hcode.length_pos.2
  have hfits : index + chunk.length ≤ buffer.length := by omega
  have hshape : before ++ (code ++ s) ++ behind = before ++ code ++ (s ++ behind) := by
    simp only [List.append_assoc]
  have hshape' : before ++ code ++ (s ++ behind) = (before ++ code) ++ s ++ behind := by
    simp only [List.append_assoc]
  have hle := toInt32_le (index + 1)
  rw [splice_splice hfits, List.length_append] at hrun
  rw [hshape, urlDecodeFrom_code hcode hlt hint, if_pos (by omega), if_pos hfits, hshape', hrun]

/-- Behind the last position that is looked at only the NUL is written. -/
theorem urlDecodeFrom_past (hlt : ¬before.length < total) (hint : before.length < 2 ^ 31)
    (hindex : index < buffer.length) :
    urlDecodeFrom (before ++ s ++ behind) total size buffer index before.length fuel =
      .ok (splice buffer index (decodedPart (total - before.length) s ++ [0])) := by
  rw [urlDecodeFrom_end (by rw [toInt32_of_lt hint]; omega), writeAt_eq hindex, Nat.sub_eq_zero_of_le (by omega),
    decodedPart_zero]
  rfl

/-- A string of whole escapes is decoded code by code. `i` does not wrap: the codes that are looked
at begin well in front of 2^31, or end with the string. -/
theorem urlDecodeFrom_whole (h : WholeEscapes s) (hfuel : s.length ≤ fuel)
    (htotal : total ≤ before.length + s.length)
    (hint : total + 2 < 2 ^ 31 ∧ before.length < 2 ^ 31 ∨
      total = before.length + s.length ∧ total < 2 ^ 31) (hsize : size ≤ buffer.length)
    (hroom : index + (decodedPart (total - before.length) s).length + 1 ≤ size) :
    urlDecodeFrom (before ++ s ++ behind) total size buffer index before.length fuel =
      .ok (splice buffer index (decodedPart (total - before.length) s ++ [0])) := by
  induction h generalizing before buffer index fuel with
  | nil =>
    rw [List.length_nil] at htotal hint
    exact urlDecodeFrom_past (by omega) (by omega) (by omega)
  | @plain c s hzero hpercent h ih =>
    rw [List.length_cons] at hint
    by_cases hlt : before.length < total
    swap
    · exact urlDecodeFrom_past hlt (by omega) (by omega)
    obtain ⟨left, hleft⟩ : ∃ left, total - before.length = left + 1 :=
      Nat.exists_eq_add_one.mpr (by omega)
    obtain ⟨fuel, rfl⟩ : ∃ k, fuel = k + 1 := Nat.exists_eq_add_one.mpr (Nat.lt_of_lt_of_le
      (Nat.succ_pos _) hfuel)
    have hnext : total - (before ++ [c]).length = left := by
      rw [List.length_append, List.length_singleton]
      omega
    rw [hleft, decodedPart_plain hpercent, List.length_append] at hroom
    rw [hleft, decodedPart_plain hpercent, List.append_assoc (plainChunk c)]
    have hfits : index + (plainChunk c).length + 1 ≤ size := by omega
    refine urlDecodeFrom_step (decodes_plain hzero hpercent) hlt
      (by rw [List.length_singleton]; omega) hsize hfits ?_
    have hbuffer : (splice buffer index (plainChunk c)).length = buffer.length :=
      length_splice (by omega)
    have htotal' : total ≤ (before ++ [c]).length + s.length := by
      simp only [List.length_append, List.length_cons, List.length_nil] at htotal ⊢
      omega
    have hint' : total + 2 < 2 ^ 31 ∧ (before ++ [c]).length < 2 ^ 31 ∨
        total = (before ++ [c]).length + s.length ∧ total < 2 ^ 31 := by
      rw [List.length_append, List.length_singleton]
      omega
    have hrun := @ih (splice buffer index (plainChunk c)) (before ++ [c])
      (index + (plainChunk c).length) fuel (Nat.le_of_succ_le_succ hfuel) htotal' hint'
      (hbuffer ▸ hsize) (by rw [hnext]; omega)
    rwa [hnext] at hrun
  | @escape high low s hhigh hlow h ih =>
    simp only [List.length_cons] at hint
    by_cases hlt : before.length < total
    swap
    · exact urlDecodeFrom_past hlt (by omega) (by omega)
    obtain ⟨left, hleft⟩ : ∃ left, total - before.length = left + 1 :=
      Nat.exists_eq_add_one.mpr (by omega)
    simp only [List.length_cons] at hfuel htotal
    obtain ⟨fuel, rfl⟩ : ∃ k, fuel = k + 1 := Nat.exists_eq_add_one.mpr (by omega)
    have hnext : total - (before ++ [37, high, low]).length = left - 2 := by
      simp only [List.length_append, List.length_cons, List.length_nil]
      omega
    rw [hleft, decodedPart_escape, List.length_cons] at hroom
    rw [hleft, decodedPart_escape]
    have hcode : Decodes [37, high, low] [escapeByte high low] :=
      .hex (ne_of_mem_hexDigits _ hhigh).1 (ne_of_mem_hexDigits _ hlow).1
    have hfits : index + [escapeByte high low].length + 1 ≤ size := by
      rw [List.length_singleton]
      omega
    refine urlDecodeFrom_step hcode hlt
      (by simp only [List.length_cons, List.length_nil]; omega) hsize hfits ?_
    have hbuffer : (splice buffer index [escapeByte high low]).length = buffer.length :=
      length_splice (by omega)
    have htotal' : total ≤ (before ++ [37, high, low]).length + s.length := by
      simp only [List.length_append, List.length_cons, List.length_nil]
      omega
    have hint' : total + 2 < 2 ^ 31 ∧ (before ++ [37, high, low]).length < 2 ^ 31 ∨
        total = (before ++ [37, high, low]).length + s.length ∧ total < 2 ^ 31 := by
      simp only [List.length_append, List.length_cons, List.length_nil]
      omega
    have hrun := @ih (splice buffer index [escapeByte high low]) (before ++ [37, high, low])
      (index + 1) fuel (by omega) htotal' hint' (hbuffer ▸ hsize) (by rw [hnext]; omega)
    rwa [hnext] at hrun

theorem count_percent_le {s : Bytes} (h : WholeEscapes s) : 3 * s.count 37 ≤ s.length := by
  induction h with
  | nil => simp
  | @plain c s hzero hpercent h ih =>
    rw [List.count_cons_of_ne hpercent, List.length_cons]
    omega
  | @escape high low s hhigh hlow h ih =>
    rw [List.count_cons_self, List.count_cons_of_ne (ne_of_mem_hexDigits _ hhigh).2,
      List.count_cons_of_ne (ne_of_mem_hexDigits _ hlow).2]
    simp only [List.length_cons]
    omega

/-- **What `url_decode` makes of a string of whole escapes**, however long it is. -/
theorem urlDecode_whole (h : WholeEscapes s) (behind : Bytes)
    (hroom : s.length + s.count 43 < buffer.length + 2 * s.count 37)
    (hint : buffer.length < 2 ^ 31) :
    urlDecode (s ++ 0 :: behind) buffer buffer.length =
      .ok (splice buffer 0 (decodedPart (toInt32 s.length).toNat s ++ [0])) := by
  have hle := toInt32_le s.length
  have hpart := length_decodedPart_le h (toInt32 s.length).toNat
  have hpercent := count_percent_le h
  -- a string whose length wraps to nearly 2^31 has too many characters for the buffer
  have htotal : (toInt32 s.length).toNat + 2 < 2 ^ 31 ∨
      (toInt32 s.length).toNat = s.length ∧ s.length < 2 ^ 31 := by
    unfold toInt32
    split <;> omega
  simp only [urlDecode, strlen_append_zero h.ne_zero, bind, Except.bind]
  rw [← urlDecodeFrom_toNat]
  have hrun := @urlDecodeFrom_whole s buffer [] (0 :: behind) buffer.length
    (toInt32 s.length).toNat 0 s.length h (Nat.le_refl _) (by rw [List.length_nil]; omega)
    (by rw [List.length_nil]; omega) (Nat.le_refl _) (by rw [List.length_nil, Nat.sub_zero]; omega)
  rwa [List.length_nil, Nat.sub_zero] at hrun

end Loop

/-! ## Two strings -/

theorem text_plainChunk {c : UInt8} (hzero : c ≠ 0) (s : Bytes) :
    text (plainChunk c ++ s) = plainChunk c ++ text s := by
  have hnone : ¬(0 : UInt8) ∈ plainChunk c := fun hmem => ne_zero_of_mem_plainChunk hzero 0 hmem rfl
  rw [text_append, if_neg hnone]

theorem not_differ_zero (s s' : Bytes) : ¬EscapesDiffer 0 s s' := by
  rintro ⟨front, high, low, high', low', rest, rest', hs, hs', hne, hlt, hnul⟩
  exact Nat.not_lt_zero _ hlt

theorem not_differ_nil (left : Nat) : ¬EscapesDiffer left [] [] := by
  rintro ⟨front, high, low, high', low', rest, rest', hs, -⟩
  cases front <;> cases hs

/-- A character that is not in an escape moves the difference by one. -/
theorem differ_plain {c : UInt8} {s s' : Bytes} {left : Nat} (hpercent : c ≠ 37) :
    EscapesDiffer (left + 1) (c :: s) (c :: s') ↔ EscapesDiffer left s s' := by
  constructor
  · rintro ⟨front, high, low, high', low', rest, rest', hs, hs', hne, hlt, hnul⟩
    cases front with
    | nil => exact absurd (List.cons.inj hs).1 hpercent
    | cons x front =>
      refine ⟨front, high, low, high', low', rest, rest', (List.cons.inj hs).2,
        (List.cons.inj hs').2, hne, Nat.lt_of_succ_lt_succ hlt, fun x y hxy hin => ?_⟩
      exact hnul x y hxy (List.infix_cons hin)
  · rintro ⟨front, high, low, high', low', rest, rest', rfl, rfl, hne, hlt, hnul⟩
    refine ⟨c :: front, high, low, high', low', rest, rest', rfl, rfl, hne, Nat.succ_lt_succ hlt,
      fun x y hxy hin => ?_⟩
    rcases List.infix_cons_iff.mp hin with hprefix | hin
    · exact hpercent (List.cons_prefix_cons.mp hprefix).1.symm
    · exact hnul x y hxy hin

/-- Behind an escape that both strings have the difference has moved by three, if there is one that
counts. -/
theorem differ_escape {high low : UInt8} {s s' : Bytes} {left : Nat} (hhigh : high ∈ hexDigits)
    (hlow : low ∈ hexDigits) :
    EscapesDiffer (left + 1) (37 :: high :: low :: s) (37 :: high :: low :: s') ↔
      ¬NulEscape high low ∧ EscapesDiffer (left - 2) s s' := by
  have hhigh' := (ne_of_mem_hexDigits _ hhigh).2
  have hlow' := (ne_of_mem_hexDigits _ hlow).2
  constructor
  · rintro ⟨front, x, y, x', y', rest, rest', hs, hs', hne, hlt, hnul⟩
    -- a `%` is no digit, so that the difference starts at the escape or behind it
    match front with
    | [] =>
      simp only [List.nil_append, List.cons.injEq] at hs hs'
      exact absurd ⟨hs.2.1.symm.trans hs'.2.1, hs.2.2.1.symm.trans hs'.2.2.1⟩ hne
    | [_] =>
      simp only [List.cons_append, List.nil_append, List.cons.injEq] at hs
      exact absurd hs.2.1 hhigh'
    | [_, _] =>
      simp only [List.cons_append, List.nil_append, List.cons.injEq] at hs
      exact absurd hs.2.2.1 hlow'
    | a :: b :: c :: front =>
      simp only [List.cons_append, List.cons.injEq] at hs hs'
      obtain ⟨rfl, rfl, rfl, hs⟩ := hs
      refine ⟨fun h => hnul high low h ⟨[], front, rfl⟩, front, x, y, x', y', rest, rest', hs,
        hs'.2.2.2, hne, ?_, fun u v huv hin => hnul u v huv ?_⟩
      · simp only [List.length_cons] at hlt
        omega
      · exact List.infix_cons (List.infix_cons (List.infix_cons hin))
  · rintro ⟨hnot, front, x, y, x', y', rest, rest', rfl, rfl, hne, hlt, hnul⟩
    refine ⟨37 :: high :: low :: front, x, y, x', y', rest, rest', rfl, rfl, hne, ?_,
      fun u v huv hin => ?_⟩
    · simp only [List.length_cons]
      omega
    rcases List.infix_cons_iff.mp hin with hprefix | hin
    · have htail := (List.cons_prefix_cons.mp hprefix).2
      obtain ⟨hu, hrest⟩ := List.cons_prefix_cons.mp htail
      have hv := (List.cons_prefix_cons.mp hrest).1
      exact hnot (hu ▸ hv ▸ huv)
    rcases List.infix_cons_iff.mp hin with hprefix | hin
    · exact hhigh' (List.cons_prefix_cons.mp hprefix).1.symm
    rcases List.infix_cons_iff.mp hin with hprefix | hin
    · exact hlow' (List.cons_prefix_cons.mp hprefix).1.symm
    · exact hnul u v huv hin

/-- The decoded texts differ with the first escape that does. -/
theorem text_decodedPart_eq_iff {s s' : Bytes} (h : SameButDigitCase s s') (left : Nat) :
    text (decodedPart left s) = text (decodedPart left s') ↔ ¬EscapesDiffer left s s' := by
  induction h generalizing left with
  | nil =>
    exact iff_of_true rfl (not_differ_nil left)
  | @plain c s s' hzero hpercent h ih =>
    cases left with
    | zero =>
      rw [decodedPart_zero, decodedPart_zero]
      exact iff_of_true rfl (not_differ_zero _ _)
    | succ left =>
      rw [decodedPart_plain hpercent, decodedPart_plain hpercent, text_plainChunk hzero,
        text_plainChunk hzero, List.append_cancel_left_eq, ih left, differ_plain hpercent]
  | @escape high low high' low' s s' hhigh hlow hhigh' hlow' hcase hcase' h ih =>
    cases left with
    | zero =>
      rw [decodedPart_zero, decodedPart_zero]
      exact iff_of_true rfl (not_differ_zero _ _)
    | succ left =>
      rw [decodedPart_escape, decodedPart_escape]
      by_cases hsame : high = high' ∧ low = low'
      · obtain ⟨rfl, rfl⟩ := hsame
        rw [differ_escape hhigh hlow, ← escapeByte_eq_zero_iff high hhigh low hlow]
        by_cases hnul : escapeByte high low = 0
        · rw [hnul, text_zero_cons, text_zero_cons]
          exact iff_of_true rfl fun hdiffer => hdiffer.1 rfl
        · rw [text_cons_of_ne hnul, text_cons_of_ne hnul, List.cons_inj_right, ih (left - 2)]
          exact not_congr ⟨fun hdiffer => ⟨hnul, hdiffer⟩, And.right⟩
      · have hbyte : escapeByte high low ≠ escapeByte high' low' := fun heq =>
          hsame (escapeByte_injective hhigh hlow hhigh' hlow' hcase hcase' heq)
        refine iff_of_false (text_cons_ne hbyte _ _) (fun hnot => hnot ?_)
        refine ⟨[], high, low, high', low', s, s', rfl, rfl, hsame, Nat.succ_pos _,
          fun x y _ hin => ?_⟩
        have hnil := List.infix_nil.mp hin
        cases hnil

/-- **When the case of the digits does not matter**: no two escapes differ in the part that is
decoded in front of a NUL. -/
theorem sameText_iff (s s' behind behind' buffer : Bytes) (h : SameButDigitCase s s')
    (hroom : s.length + s.count 43 < buffer.length + 2 * s.count 37)
    (hint : buffer.length < 2 ^ 31) :
    SameText s s' behind behind' buffer ↔ ¬EscapesDiffer (toInt32 s.length).toNat s s' := by
  have hroom' : s'.length + s'.count 43 < buffer.length + 2 * s'.count 37 := by
    rwa [← h.length_eq, ← h.count_eq (c := 43) (by decide), ← h.count_eq (c := 37) (by decide)]
  obtain ⟨hwhole, hwhole'⟩ := h.whole
  have hrun := urlDecode_whole hwhole behind hroom hint
  have hrun' := urlDecode_whole hwhole' behind' hroom' hint
  rw [← text_decodedPart_eq_iff h, SameText, hrun, hrun']
  constructor
  · rintro ⟨d, d', hd, hd', heq⟩
    cases hd
    cases hd'
    rwa [text_splice_zero, text_splice_zero, ← h.length_eq] at heq
  · intro heq
    refine ⟨_, _, rfl, rfl, ?_⟩
    rwa [text_splice_zero, text_splice_zero, ← h.length_eq]

/-- `%00%4a` and `%00%4A` are decoded to the empty text. -/
theorem sameText_iff_nul :
    SameText [37, 48, 48, 37, 52, 97] [37, 48, 48, 37, 52, 65] [] [] [0, 0, 0] :=
  (sameText_iff [37, 48, 48, 37, 52, 97] [37, 48, 48, 37, 52, 65] [] [] [0, 0, 0]
    (.escape (by decide) (by decide) (by decide) (by decide) rfl rfl
      (.escape (by decide) (by decide) (by decide) (by decide) rfl rfl .nil)) (by decide)
    (by decide)).mpr (by
      have hlooked : (toInt32 ([37, 48, 48, 37, 52, 97] : Bytes).length).toNat = 5 + 1 := rfl
      rw [hlooked, differ_escape (by decide) (by decide)]
      exact fun hdiffer => hdiffer.1 (by decide))

/-- `%4a` and `%4A`. -/
theorem sameText_letters : ¬SameText [37, 52, 97] [37, 52, 65] [] [] [0, 0] := by
  rintro ⟨d, d', hd, hd', htext⟩
  have hsmall : urlDecode ([37, 52, 97] ++ 0 :: []) [0, 0] ([0, 0] : Bytes).length =
      .ok [96, 0] := by decide
  have hcapital : urlDecode ([37, 52, 65] ++ 0 :: []) [0, 0] ([0, 0] : Bytes).length =
      .ok [74, 0] := by decide
  cases hsmall.symm.trans hd
  cases hcapital.symm.trans hd'
  cases htext

end Sails.Base
