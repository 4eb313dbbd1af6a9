import Sails.Library.CMemory
import Sails.Library.Tokens

/-!
# `url_encode`, `url_decode` and `split` (`base/string.cc`)

- `urlEncode`: `%`-escapes; the digits of a byte from 0x80 on are read in front of `hexchars`
- `urlDecode`: a `+` is decoded to a space and kept as well
- `split`: the tokens `strtok` finds, with every byte up to the NUL of its second argument
-/

namespace Sails.Base

open TransitionRun (Fault)
open CMemory

/-! ## Memory -/

/-- `buffer[i] = c`. -/
def writeAt (buffer : Bytes) (i : Nat) (c : UInt8) : Except Fault Bytes :=
  if i < buffer.length then .ok (buffer.set i c) else .error .outOfBounds

/-- `memory[i]`. -/
def byteAt (memory : Bytes) (i : Nat) : Except Fault UInt8 :=
  match memory[i]? with
  | some c => .ok c
  | none => .error .outOfBounds

theorem byteAt_of_lt {memory : Bytes} {i : Nat} (h : i < memory.length) :
    byteAt memory i = .ok (memory.getD i 0) := by
  rw [byteAt, List.getD_eq_getElem?_getD, List.getElem?_eq_getElem h]
  rfl

theorem byteAt_of_le {memory : Bytes} {i : Nat} (h : memory.length ≤ i) :
    byteAt memory i = .error .outOfBounds := by
  rw [byteAt, List.getElem?_eq_none h]

/-- A character of a string, or its terminator. -/
theorem byteAt_append_zero {s : Bytes} {i : Nat} (h : i ≤ s.length) :
    byteAt (s ++ [0]) i = .ok (s.getD i 0) := by
  rw [byteAt_of_lt (by rw [List.length_append]; exact Nat.lt_succ_of_le h),
    List.getD_eq_getElem?_getD, List.getD_eq_getElem?_getD]
  rcases Nat.lt_or_eq_of_le h with hlt | rfl
  · rw [List.getElem?_append_left hlt]
  · simp

/-- `memory[i]` for an `int` index. -/
def byteAtInt (memory : Bytes) (i : Int) : Except Fault UInt8 :=
  if 0 ≤ i then byteAt memory i.toNat else .error .outOfBounds

theorem byteAtInt_of_lt {memory : Bytes} {i : Nat} (h : i < 2 ^ 31) :
    byteAtInt memory (toInt32 i) = byteAt memory i := by
  rw [toInt32_of_lt h, byteAtInt, if_pos (Int.natCast_nonneg i), Int.toNat_natCast]

/-- At 2^31 the index has wrapped. -/
theorem byteAtInt_wrapped (memory : Bytes) :
    byteAtInt memory (toInt32 (2 ^ 31)) = .error .outOfBounds :=
  if_neg (by decide)

/-- The value of a `char`, which is signed. -/
def charValue (c : UInt8) : Int := if c < 128 then c.toNat else (c.toNat : Int) - 256

/-! ## Encoding -/

/-- `hexchars`, with its NUL. -/
def hexchars : Bytes := ascii "0123456789ABCDEF" ++ [0]

/-- `hexchars[i]`. -/
def hexcharAt (i : Int) : Except Fault UInt8 := byteAtInt hexchars i

/-- The characters other than the space that `url_encode` does not keep. -/
def Escaped (c : UInt8) : Prop :=
  (charValue c < 48 ∧ charValue c ≠ 45 ∧ charValue c ≠ 46) ∨
    (charValue c < 65 ∧ charValue c > 57) ∨
    (charValue c > 90 ∧ charValue c < 97 ∧ charValue c ≠ 95) ∨
    (charValue c > 122 ∧ charValue c ≠ 126)

instance (c : UInt8) : Decidable (Escaped c) := inferInstanceAs (Decidable (_ ∨ _))

/-- The loop of `url_encode` from `encode_index` on, with the buffer it leaves; the result is `false`
for NULL. `encode_index` is an `int`: the sums it is tested with wrap at 2^31. No buffer of an `int`
length reaches that far, so that a store there fails as it does with the wrapped index. -/
def urlEncodeFrom (encodeLen : Int) (buffer : Bytes) (index : Nat) :
    Bytes → Except Fault (Bytes × Bool)
  | [] => do
    let buffer ← writeAt buffer index 0
    return (buffer, true)
  | c :: cs =>
    if encodeLen < toInt32 (index + 2) then .ok (buffer, false)
    else if c = 32 then do
      let buffer ← writeAt buffer index 43
      urlEncodeFrom encodeLen buffer (index + 1) cs
    else if Escaped c then
      if encodeLen < toInt32 (index + 4) then .ok (buffer, false)
      else do
        let buffer ← writeAt buffer index 37
        let high ← hexcharAt (charValue c / 16)
        let buffer ← writeAt buffer (index + 1) high
        let low ← hexcharAt (charValue c % 16)
        let buffer ← writeAt buffer (index + 2) low
        urlEncodeFrom encodeLen buffer (index + 3) cs
    else do
      let buffer ← writeAt buffer index c
      urlEncodeFrom encodeLen buffer (index + 1) cs

/-- `url_encode(source_str, encode_str, encode_len)`. -/
def urlEncode (source buffer : Bytes) (encodeLen : Int) : Except Fault (Bytes × Bool) := do
  let sourceLen ← strlen source
  if encodeLen < toInt32 sourceLen then return (buffer, false)
  else urlEncodeFrom encodeLen buffer 0 (source.take (toInt32 sourceLen).toNat)

/-! ## Decoding -/

/-- `FromHexChar`, which takes all capital letters for digits. -/
def fromHexChar (hex : UInt8) : Nat :=
  if 48 ≤ hex ∧ hex ≤ 57 then hex.toNat - 48
  else if 65 ≤ hex ∧ hex ≤ 90 then hex.toNat - 65 + 10
  else 32

/-- The loop of `url_decode` from `i` on, which needs no more steps than there are characters left;
it ends with the NUL behind what has been written. `i` and `source_index` are `int`s, which wrap at
2^31. -/
def urlDecodeFrom (encodeStr : Bytes) (encodeLen sourceLen : Int) (buffer : Bytes) (index i : Nat) :
    Nat → Except Fault Bytes
  | 0 => writeAt buffer index 0
  | fuel + 1 =>
    if toInt32 i < encodeLen ∧ sourceLen > toInt32 (index + 1) then do
      let c ← byteAtInt encodeStr (toInt32 i)
      -- the source goes on with the `+` after it has written the space
      let (buffer, index) ←
        if c = 43 then do
          let buffer ← writeAt buffer index 32
          pure (buffer, index + 1)
        else pure (buffer, index)
      if c = 37 then do
        let high ← byteAtInt encodeStr (toInt32 (i + 1))
        let low ← byteAtInt encodeStr (toInt32 (i + 2))
        let buffer ← writeAt buffer index (fromHexChar high * 16 + fromHexChar low).toUInt8
        urlDecodeFrom encodeStr encodeLen sourceLen buffer (index + 1) (i + 3) fuel
      else do
        let buffer ← writeAt buffer index c
        urlDecodeFrom encodeStr encodeLen sourceLen buffer (index + 1) (i + 1) fuel
    else writeAt buffer index 0

/-- `url_decode(encode_str, source_str, source_len)`. -/
def urlDecode (encodeStr buffer : Bytes) (sourceLen : Int) : Except Fault Bytes := do
  let encodeLen ← strlen encodeStr
  urlDecodeFrom encodeStr (toInt32 encodeLen) sourceLen buffer 0 0 encodeLen

/-! ## Splitting -/

/-- `split(str, c)`: the string is copied up to its NUL; `strtok` reads its delimiters from `c` up to
a NUL. -/
def split (str c : Bytes) : Except Fault (List Bytes) := do
  let count ← strlen c
  return Tokens.tokens (fun b => (c.take count).contains b) (text str)

/-- `SplitString(str, delim, &result)`, which is `split` with the tokens appended to a vector. -/
def splitString (str delim : Bytes) (result : List Bytes) : Except Fault (List Bytes) := do
  let tokens ← split str delim
  return result ++ tokens

/-! ## Writing -/

theorem writeAt_eq {buffer : Bytes} {i : Nat} (h : i < buffer.length) (c : UInt8) :
    writeAt buffer i c = .ok (splice buffer i [c]) := by
  rw [writeAt, if_pos h, splice, List.set_eq_take_append_cons_drop, if_pos h, List.length_singleton,
    List.append_assoc]
  rfl

/-- A write is inside, and keeps the length, or it is outside. -/
theorem writeAt_cases (buffer : Bytes) (i : Nat) (c : UInt8) :
    writeAt buffer i c = .error .outOfBounds ∨
      ∃ buffer', writeAt buffer i c = .ok buffer' ∧ buffer'.length = buffer.length ∧
        i < buffer.length := by
  by_cases h : i < buffer.length
  · exact .inr ⟨_, if_pos h, List.length_set, h⟩
  · exact .inl (if_neg h)

/-- One byte behind a run just written. -/
theorem writeAt_splice {buffer : Bytes} {i : Nat} (bs : Bytes) (h : i + bs.length < buffer.length)
    (c : UInt8) :
    writeAt (splice buffer i bs) (i + bs.length) c = .ok (splice buffer i (bs ++ [c])) := by
  rw [writeAt_eq (by rwa [length_splice h.le]), splice_splice h.le]

/-! ## The encoded text -/

/-- The digit of a number below 16. -/
def hexDigit (n : Nat) : UInt8 := hexchars.getD n 0

/-- The code of one byte. -/
def encodedByte (c : UInt8) : Bytes :=
  if c = 32 then [43]
  else if Escaped c then [37, hexDigit (c.toNat / 16), hexDigit (c.toNat % 16)]
  else [c]

/-- The text `url_encode` is to make. -/
def encodedText (s : Bytes) : Bytes := s.flatMap encodedByte

theorem length_le_encodedText (s : Bytes) : s.length ≤ (encodedText s).length := by
  induction s with
  | nil => exact Nat.le_refl 0
  | cons c s ih =>
    have hone : 1 ≤ (encodedByte c).length := by
      unfold encodedByte
      split_ifs <;> simp
    rw [encodedText, List.flatMap_cons, List.length_append, List.length_cons]
    rw [encodedText] at ih
    omega

theorem hexcharAt_eq {n : Nat} (h : n < 16) : hexcharAt n = .ok (hexDigit n) := by
  have hlt : n < hexchars.length := h.trans (by decide)
  rw [hexcharAt, byteAtInt, if_pos (Int.natCast_nonneg n), Int.toNat_natCast, byteAt,
    List.getElem?_eq_getElem hlt, hexDigit, List.getD_eq_getElem?_getD, List.getElem?_eq_getElem hlt]
  rfl

/-- An index outside `hexchars` is the only way to fail. -/
theorem hexcharAt_error {i : Int} {e : Fault} (h : hexcharAt i = .error e) : e = .outOfBounds := by
  unfold hexcharAt byteAtInt byteAt at h
  split at h
  · split at h
    · cases h
    · exact (Except.error.inj h).symm
  · exact (Except.error.inj h).symm

theorem charValue_of_lt {c : UInt8} (h : c < 128) : charValue c = c.toNat := if_pos h

/-- A byte from 0x80 on is a negative `char`. -/
theorem charValue_neg {c : UInt8} (h : ¬c < 128) : charValue c < 0 := by
  have hlt := c.toNat_lt
  rw [charValue, if_neg h]
  omega

theorem escaped_of_not_ascii {c : UInt8} (h : ¬c < 128) : c ≠ 32 ∧ Escaped c := by
  have hneg := charValue_neg h
  refine ⟨fun h32 => h (by rw [h32]; decide), .inl ⟨by omega, by omega, by omega⟩⟩

section Encode

variable {buffer : Bytes} {size index : Nat} {c : UInt8} {cs : Bytes}

/-- A character of ASCII appends its code. -/
theorem urlEncodeFrom_cons (hsize : size ≤ buffer.length) (hc : c < 128)
    (hroom : index + (encodedByte c).length + 1 ≤ size) :
    urlEncodeFrom size buffer index (c :: cs) =
      urlEncodeFrom size (splice buffer index (encodedByte c)) (index + (encodedByte c).length)
        cs := by
  -- a sum that wraps is below its value
  have htwo := toInt32_le (index + 2)
  have hfour := toInt32_le (index + 4)
  by_cases hspace : c = 32
  · have hcode : encodedByte c = [43] := if_pos hspace
    rw [hcode, List.length_singleton] at hroom ⊢
    rw [urlEncodeFrom, if_neg (by omega), if_pos hspace, writeAt_eq (by omega)]
    rfl
  by_cases hescaped : Escaped c
  · have hcode : encodedByte c = [37, hexDigit (c.toNat / 16), hexDigit (c.toNat % 16)] := by
      rw [encodedByte, if_neg hspace, if_pos hescaped]
    have hlt : c.toNat < 128 := hc
    have hhigh : hexcharAt (charValue c / 16) = .ok (hexDigit (c.toNat / 16)) := by
      have hdiv : charValue c / 16 = ((c.toNat / 16 : Nat) : Int) := by
        rw [charValue_of_lt hc, Int.natCast_ediv]
        rfl
      rw [hdiv]
      exact hexcharAt_eq (n := c.toNat / 16) (by omega)
    have hlow : hexcharAt (charValue c % 16) = .ok (hexDigit (c.toNat % 16)) := by
      have hmod : charValue c % 16 = ((c.toNat % 16 : Nat) : Int) := by
        rw [charValue_of_lt hc, Int.natCast_emod]
        rfl
      rw [hmod]
      exact hexcharAt_eq (n := c.toNat % 16) (by omega)
    rw [hcode] at hroom ⊢
    simp only [List.length_cons, List.length_nil] at hroom
    -- the three writes, each behind the one before
    have h₁ : writeAt buffer index 37 = .ok (splice buffer index [37]) := writeAt_eq (by omega) 37
    have h₂ : writeAt (splice buffer index [37]) (index + 1) (hexDigit (c.toNat / 16)) =
        .ok (splice buffer index [37, hexDigit (c.toNat / 16)]) :=
      writeAt_splice [37] (by simp; omega) _
    have h₃ : writeAt (splice buffer index [37, hexDigit (c.toNat / 16)]) (index + 2)
        (hexDigit (c.toNat % 16)) =
        .ok (splice buffer index [37, hexDigit (c.toNat / 16), hexDigit (c.toNat % 16)]) :=
      writeAt_splice [37, hexDigit (c.toNat / 16)] (by simp; omega) _
    rw [urlEncodeFrom, if_neg (by omega), if_neg hspace, if_pos hescaped, if_neg (by omega)]
    simp only [h₁, hhigh, h₂, hlow, h₃, bind, Except.bind]
    rfl
  · have hcode : encodedByte c = [c] := by rw [encodedByte, if_neg hspace, if_neg hescaped]
    rw [hcode, List.length_singleton] at hroom ⊢
    rw [urlEncodeFrom, if_neg (by omega), if_neg hspace, if_neg hescaped, writeAt_eq (by omega)]
    rfl

/-- A byte from 0x80 on, with room for its code, has the loop read in front of `hexchars`. -/
theorem urlEncodeFrom_cons_of_not_ascii (hsize : size ≤ buffer.length) (hc : ¬c < 128)
    (hroom : index + 4 ≤ size) :
    urlEncodeFrom size buffer index (c :: cs) = .error .outOfBounds := by
  have htwo := toInt32_le (index + 2)
  have hfour := toInt32_le (index + 4)
  obtain ⟨hspace, hescaped⟩ := escaped_of_not_ascii hc
  have hneg : ¬0 ≤ charValue c / 16 := by
    have hvalue := charValue_neg hc
    omega
  have hhigh : hexcharAt (charValue c / 16) = .error .outOfBounds := by
    rw [hexcharAt, byteAtInt, if_neg hneg]
  rw [urlEncodeFrom, if_neg (by omega), if_neg hspace, if_pos hescaped, if_neg (by omega),
    writeAt_eq (by omega), hhigh]
  rfl

/-- The whole code of a text of ASCII, with its NUL. -/
theorem urlEncodeFrom_eq (hsize : size ≤ buffer.length) (hcs : ∀ c ∈ cs, c < 128)
    (hroom : index + (encodedText cs).length + 1 ≤ size) :
    urlEncodeFrom size buffer index cs =
      .ok (splice buffer index (encodedText cs ++ [0]), true) := by
  induction cs generalizing buffer index with
  | nil =>
    rw [encodedText, List.flatMap_nil, List.length_nil] at hroom
    rw [urlEncodeFrom, writeAt_eq (by omega)]
    rfl
  | cons c cs ih =>
    have htext : encodedText (c :: cs) = encodedByte c ++ encodedText cs := List.flatMap_cons
    rw [htext, List.length_append] at hroom
    have hlen : (splice buffer index (encodedByte c)).length = buffer.length :=
      length_splice (by omega)
    rw [urlEncodeFrom_cons hsize (hcs c (List.mem_cons_self ..)) (by omega),
      ih (hlen ▸ hsize) (fun x hx => hcs x (List.mem_cons_of_mem _ hx)) (by omega),
      splice_splice (by omega), htext, List.append_assoc]

/-- With a byte from 0x80 on the loop reads in front of `hexchars`. -/
theorem urlEncodeFrom_of_not_ascii (hsize : size ≤ buffer.length) (hcs : ∃ c ∈ cs, ¬c < 128)
    (hroom : index + (encodedText cs).length + 1 ≤ size) :
    urlEncodeFrom size buffer index cs = .error .outOfBounds := by
  induction cs generalizing buffer index with
  | nil => simp at hcs
  | cons c cs ih =>
    have htext : encodedText (c :: cs) = encodedByte c ++ encodedText cs := List.flatMap_cons
    rw [htext, List.length_append] at hroom
    by_cases hc : c < 128
    · have hlen : (splice buffer index (encodedByte c)).length = buffer.length :=
        length_splice (by omega)
      rw [urlEncodeFrom_cons hsize hc (by omega)]
      refine ih (hlen ▸ hsize) ?_ (by omega)
      obtain ⟨x, hx, hx'⟩ := hcs
      rcases List.mem_cons.mp hx with rfl | hx
      · exact absurd hc hx'
      · exact ⟨x, hx, hx'⟩
    · obtain ⟨hspace, hescaped⟩ := escaped_of_not_ascii hc
      have hcode : (encodedByte c).length = 3 := by
        rw [encodedByte, if_neg hspace, if_pos hescaped]
        rfl
      exact urlEncodeFrom_cons_of_not_ascii hsize hc (by omega)

end Encode

/-! ## The decoded text -/

/-- What `url_decode` makes of one code: the code and the bytes it is decoded to. -/
inductive Decodes : Bytes → Bytes → Prop
  | plus : Decodes [43] [32, 43]
  | hex {high low : UInt8} (hhigh : high ≠ 0) (hlow : low ≠ 0) :
      Decodes [37, high, low] [(fromHexChar high * 16 + fromHexChar low).toUInt8]
  | plain {c : UInt8} (hzero : c ≠ 0) (hplus : c ≠ 43) (hpercent : c ≠ 37) : Decodes [c] [c]

/-- Codes are without NUL. -/
theorem Decodes.ne_zero {code chunk : Bytes} (h : Decodes code chunk) : ∀ c ∈ code, c ≠ 0 := by
  cases h with
  | plus => simp
  | hex hhigh hlow => simp [hhigh, hlow]
  | plain hzero hplus hpercent => simpa using hzero

theorem Decodes.length_pos {code chunk : Bytes} (h : Decodes code chunk) :
    0 < code.length ∧ 0 < chunk.length := by
  cases h <;> exact ⟨Nat.succ_pos _, Nat.succ_pos _⟩

/-- The decoded chunks written to a buffer of `size` bytes: a chunk is begun as long as there is room
for one byte and the NUL, whatever its length. -/
def fillFrom (size : Int) (buffer : Bytes) (index : Nat) : List Bytes → Except Fault Bytes
  | [] => writeAt buffer index 0
  | chunk :: chunks =>
    if size > toInt32 (index + 1) then
      if index + chunk.length ≤ buffer.length then
        fillFrom size (splice buffer index chunk) (index + chunk.length) chunks
      else .error .outOfBounds
    else writeAt buffer index 0

section Fill

variable {size : Int} {buffer filled : Bytes} {index : Nat} {chunks : List Bytes}

/-- What has been written without a fault is some of the chunks, whole, and a NUL; chunks are left
over for want of room only. -/
theorem exists_of_fillFrom (h : fillFrom size buffer index chunks = .ok filled) :
    ∃ done rest, chunks = done ++ rest ∧ filled = splice buffer index (done.flatten ++ [0]) ∧
      index + done.flatten.length < buffer.length ∧
      (rest = [] ∨ size ≤ index + done.flatten.length + 1) := by
  have hend {buffer : Bytes} {index : Nat} (h : writeAt buffer index 0 = .ok filled) :
      filled = splice buffer index ([] ++ [0]) ∧ index + 0 < buffer.length := by
    by_cases hlt : index < buffer.length
    · rw [writeAt_eq hlt] at h
      cases h
      exact ⟨rfl, hlt⟩
    · rw [writeAt, if_neg hlt] at h
      cases h
  induction chunks generalizing buffer index with
  | nil => exact ⟨[], [], rfl, (hend h).1, (hend h).2, .inl rfl⟩
  | cons chunk chunks ih =>
    rw [fillFrom] at h
    split_ifs at h with hroom hfits
    · obtain ⟨done, rest, rfl, hfilled, hlt, hrest⟩ := ih h
      rw [length_splice hfits] at hlt
      refine ⟨chunk :: done, rest, rfl, ?_, ?_, ?_⟩
      · rw [hfilled, splice_splice hfits, List.flatten_cons, List.append_assoc]
      · rw [List.flatten_cons, List.length_append]
        omega
      · refine hrest.imp_right fun hle => ?_
        rw [List.flatten_cons, List.length_append]
        push_cast
        omega
    · have hle := toInt32_le (index + 1)
      refine ⟨[], chunk :: chunks, rfl, (hend h).1, (hend h).2, .inr ?_⟩
      rw [List.flatten_nil, List.length_nil]
      omega

/-- Chunks that fit are written, whatever stands behind them. -/
theorem fillFrom_append {size : Nat} (rest : List Bytes) (hsize : size ≤ buffer.length)
    (hne : ∀ chunk ∈ chunks, chunk ≠ []) (hroom : index + chunks.flatten.length + 1 ≤ size) :
    fillFrom size buffer index (chunks ++ rest) =
      fillFrom size (splice buffer index chunks.flatten) (index + chunks.flatten.length) rest := by
  induction chunks generalizing buffer index with
  | nil =>
    rw [List.flatten_nil, splice_nil]
    rfl
  | cons chunk chunks ih =>
    have hpos := List.length_pos_of_ne_nil (hne chunk (List.mem_cons_self ..))
    rw [List.flatten_cons, List.length_append] at hroom
    have hfits : index + chunk.length ≤ buffer.length := by omega
    have hle := toInt32_le (index + 1)
    rw [List.cons_append, fillFrom, if_pos (by omega), if_pos hfits,
      ih (by rwa [length_splice hfits]) (fun x hx => hne x (List.mem_cons_of_mem _ hx)) (by omega),
      splice_splice hfits, List.flatten_cons, List.length_append, Nat.add_assoc]

/-- All chunks are written if they fit. -/
theorem fillFrom_eq {size : Nat} (hsize : size ≤ buffer.length) (hne : ∀ chunk ∈ chunks, chunk ≠ [])
    (hroom : index + chunks.flatten.length + 1 ≤ size) :
    fillFrom size buffer index chunks = .ok (splice buffer index (chunks.flatten ++ [0])) := by
  have hrun := fillFrom_append [] hsize hne hroom
  rw [List.append_nil] at hrun
  rw [hrun, fillFrom, writeAt_splice _ (by omega)]

end Fill

/-- A code and its chunk. -/
abbrev Code := Bytes × Bytes

section Decode

variable {sourceLen : Int} {buffer before behind : Bytes} {index : Nat}

theorem byteAt_append {memory : Bytes} (before behind : Bytes) {c : UInt8} {i : Nat}
    (hmemory : memory = before ++ c :: behind) (hi : before.length = i) :
    byteAt memory i = .ok c := by
  rw [byteAt, hmemory, ← hi, List.getElem?_append_right (Nat.le_refl _), Nat.sub_self]
  rfl

/-- One pass of the loop, with the code in front of 2^31. -/
theorem urlDecodeFrom_code {code chunk : Bytes} (h : Decodes code chunk) {total fuel : Nat}
    (hbefore : before.length < total) (hint : before.length + code.length ≤ 2 ^ 31) :
    urlDecodeFrom (before ++ code ++ behind) total sourceLen buffer index before.length (fuel + 1) =
      if sourceLen > toInt32 (index + 1) then
        if index + chunk.length ≤ buffer.length then
          urlDecodeFrom (before ++ code ++ behind) total sourceLen (splice buffer index chunk)
            (index + chunk.length) (before.length + code.length) fuel
        else .error .outOfBounds
      else writeAt buffer index 0 := by
  have hpos := h.length_pos.1
  have hlt : toInt32 before.length < total := by
    have hle := toInt32_le before.length
    omega
  have hfirst : byteAtInt (before ++ code ++ behind) (toInt32 before.length) =
      byteAt (before ++ code ++ behind) before.length := byteAtInt_of_lt (by omega)
  by_cases hroom : sourceLen > toInt32 (index + 1)
  · rw [urlDecodeFrom, if_pos ⟨hlt, hroom⟩, if_pos hroom]
    cases h with
    | plus =>
      have hread : byteAtInt (before ++ [43] ++ behind) (toInt32 before.length) = .ok 43 :=
        hfirst.trans (byteAt_append before behind (List.append_assoc ..) rfl)
      simp only [hread, bind, Except.bind, pure, Except.pure, if_true, List.length_cons,
        List.length_nil]
      -- the space is written, then the `+`
      by_cases hfits : index + 2 ≤ buffer.length
      · have hspace : writeAt buffer index 32 = .ok (splice buffer index [32]) :=
          writeAt_eq (by omega) 32
        have hplus : writeAt (splice buffer index [32]) (index + 1) 43 =
            .ok (splice buffer index [32, 43]) := writeAt_splice [32] (by simp; omega) _
        rw [if_pos hfits]
        simp only [hspace, hplus]
        rfl
      · rw [if_neg hfits]
        by_cases hone : index < buffer.length
        · have hspace := writeAt_eq hone 32
          have hplus : writeAt (splice buffer index [32]) (index + 1) 43 = .error .outOfBounds := by
            rw [writeAt, length_splice (by simp; omega), if_neg (by omega)]
          simp only [hspace, hplus]
          rfl
        · have hspace : writeAt buffer index 32 = .error .outOfBounds := by rw [writeAt, if_neg hone]
          simp only [hspace]
    | @hex high low hhigh hlow =>
      rw [List.length_cons, List.length_cons, List.length_singleton] at hint
      have hread : byteAtInt (before ++ [37, high, low] ++ behind) (toInt32 before.length) =
          .ok 37 := hfirst.trans (byteAt_append before (high :: low :: behind)
            (List.append_assoc ..) rfl)
      have hreadHigh : byteAtInt (before ++ [37, high, low] ++ behind)
          (toInt32 (before.length + 1)) = .ok high :=
        (byteAtInt_of_lt (by omega)).trans
          (byteAt_append (before ++ [37]) (low :: behind) (by simp) (by simp))
      have hreadLow : byteAtInt (before ++ [37, high, low] ++ behind)
          (toInt32 (before.length + 2)) = .ok low :=
        (byteAtInt_of_lt (by omega)).trans
          (byteAt_append (before ++ [37, high]) behind (by simp) (by simp))
      have hplus : (37 : UInt8) ≠ 43 := by decide
      simp only [hread, hreadHigh, hreadLow, hplus, bind, Except.bind, pure, Except.pure, if_true,
        if_false, List.length_cons, List.length_nil]
      by_cases hfits : index + 1 ≤ buffer.length
      · have hwrite := writeAt_eq hfits
          (fromHexChar high * 16 + fromHexChar low).toUInt8
        rw [if_pos hfits]
        simp only [hwrite]
      · have hwrite : writeAt buffer index (fromHexChar high * 16 + fromHexChar low).toUInt8 =
            .error .outOfBounds := by rw [writeAt, if_neg (by omega)]
        rw [if_neg hfits]
        simp only [hwrite]
    | @plain c hzero hplus hpercent =>
      have hread : byteAtInt (before ++ [c] ++ behind) (toInt32 before.length) = .ok c :=
        hfirst.trans (byteAt_append before behind (List.append_assoc ..) rfl)
      simp only [hread, hplus, hpercent, bind, Except.bind, pure, Except.pure, if_false,
        List.length_cons, List.length_nil]
      by_cases hfits : index + 1 ≤ buffer.length
      · have hwrite := writeAt_eq hfits c
        rw [if_pos hfits]
        simp only [hwrite]
      · have hwrite : writeAt buffer index c = .error .outOfBounds := by
          rw [writeAt, if_neg (by omega)]
        rw [if_neg hfits]
        simp only [hwrite]
  · rw [urlDecodeFrom, if_neg fun h => hroom h.2, if_neg hroom]

/-- The loop on a text of codes writes their chunks. -/
theorem urlDecodeFrom_eq (before behind : Bytes) {codes : List Code}
    (h : ∀ c ∈ codes, Decodes c.1 c.2) {total fuel : Nat}
    (htotal : before.length + (codes.map Prod.fst).flatten.length = total) (hint : total < 2 ^ 31)
    (hfuel : (codes.map Prod.fst).flatten.length ≤ fuel) :
    urlDecodeFrom (before ++ (codes.map Prod.fst).flatten ++ behind) total sourceLen buffer index
        before.length fuel = fillFrom sourceLen buffer index (codes.map Prod.snd) := by
  induction codes generalizing before buffer index fuel with
  | nil =>
    have hend : ¬(toInt32 before.length < total ∧ sourceLen > toInt32 (index + 1)) := by
      simp only [List.map_nil, List.flatten_nil, List.length_nil, Nat.add_zero] at htotal
      rw [toInt32_of_lt (by omega)]
      omega
    cases fuel with
    | zero => rfl
    | succ fuel =>
      rw [urlDecodeFrom, if_neg hend]
      rfl
  | cons c codes ih =>
    have hc := h c (List.mem_cons_self ..)
    have hpos := hc.length_pos.1
    simp only [List.map_cons, List.flatten_cons, List.length_append] at htotal hfuel ⊢
    obtain ⟨fuel, rfl⟩ := Nat.exists_eq_add_one_of_ne_zero (n := fuel) (by omega)
    have hshape : before ++ (c.1 ++ (codes.map Prod.fst).flatten) ++ behind =
        before ++ c.1 ++ ((codes.map Prod.fst).flatten ++ behind) := by
      simp only [List.append_assoc]
    have hshape' : before ++ c.1 ++ ((codes.map Prod.fst).flatten ++ behind) =
        (before ++ c.1) ++ (codes.map Prod.fst).flatten ++ behind := by
      simp only [List.append_assoc]
    rw [hshape, urlDecodeFrom_code hc (by omega) (by omega), fillFrom, hshape', ← List.length_append,
      ih _ (fun x hx => h x (List.mem_cons_of_mem _ hx)) (by rw [List.length_append]; omega)
        (by omega)]

/-- **Decoding** a text of codes. -/
theorem urlDecode_eq {codes : List Code} (h : ∀ c ∈ codes, Decodes c.1 c.2)
    (hlength : (codes.map Prod.fst).flatten.length < 2 ^ 31) (behind : Bytes) :
    urlDecode ((codes.map Prod.fst).flatten ++ 0 :: behind) buffer sourceLen =
      fillFrom sourceLen buffer 0 (codes.map Prod.snd) := by
  have hne : ∀ c ∈ (codes.map Prod.fst).flatten, c ≠ 0 := by
    intro c hc
    obtain ⟨code, hcode, hc⟩ := List.mem_flatten.mp hc
    obtain ⟨x, hx, rfl⟩ := List.mem_map.mp hcode
    exact (h x hx).ne_zero c hc
  simp only [urlDecode, strlen_append_zero hne, bind, Except.bind, toInt32_of_lt hlength]
  exact urlDecodeFrom_eq [] (0 :: behind) h (Nat.zero_add _) hlength (Nat.le_refl _)

end Decode

/-! ## Encoded, then decoded -/

/-- What is left of a byte that was encoded and decoded. -/
def decodedByte (c : UInt8) : Bytes := if c = 32 then [32, 43] else [c]

theorem hexDigit_facts : ∀ n < 16, hexDigit n ≠ 0 ∧ fromHexChar (hexDigit n) = n := by decide

theorem decodes_byte {c : UInt8} (hzero : c ≠ 0) (hc : c < 128) :
    Decodes (encodedByte c) (decodedByte c) := by
  by_cases hspace : c = 32
  · rw [encodedByte, decodedByte, if_pos hspace, if_pos hspace]
    exact .plus
  rw [encodedByte, decodedByte, if_neg hspace, if_neg hspace]
  by_cases hescaped : Escaped c
  · have hlt : c.toNat < 128 := hc
    obtain ⟨hhigh, hhigh'⟩ := hexDigit_facts (c.toNat / 16) (by omega)
    obtain ⟨hlow, hlow'⟩ := hexDigit_facts (c.toNat % 16) (by omega)
    -- the two digits give the byte back
    have hbyte : (fromHexChar (hexDigit (c.toNat / 16)) * 16 +
        fromHexChar (hexDigit (c.toNat % 16))).toUInt8 = c := by
      rw [hhigh', hlow', Nat.mul_comm, Nat.div_add_mod]
      exact UInt8.ofNat_toNat
    have hdecodes := Decodes.hex hhigh hlow
    rw [hbyte] at hdecodes
    rw [if_pos hescaped]
    exact hdecodes
  · rw [if_neg hescaped]
    have hplus : c ≠ 43 := fun h => hescaped (by rw [h]; decide)
    have hpercent : c ≠ 37 := fun h => hescaped (by rw [h]; decide)
    exact .plain hzero hplus hpercent

/-! ## Splitting at what stands behind the delimiter -/

/-- The delimiters of `split` are the bytes up to the NUL; without one `strtok` reads too far. -/
theorem split_eq (str c : Bytes) :
    split str c =
      if (text c).length < c.length then
        .ok (Tokens.tokens (fun b => (text c).contains b) (text str))
      else .error .outOfBounds := by
  simp only [split, strlen_eq]
  split_ifs
  · simp only [bind, Except.bind, pure, Except.pure, take_length_text]
  · rfl

end Sails.Base
