import Sails.Base.UrlCoding

/-!
# What `url_encode` makes of a string (`base/string.cc`)

- `urlText`: the text the comment of `url_encode` describes, stated apart from the code
- `UrlEncoded`: a call inside its buffer that returns this text exactly when it fits
- `ReachesNegative`: the loop comes to a byte from 0x80 on with room for its code
- `ReachesOverflow`: the loop comes to a code that does not fit, where the sum that is tested wraps

A byte from 0x80 on is a negative `char`, so the index of its first digit is negative too. The other
departures are those of `int`: the length of a string of 2^31 bytes or more does not fit, and in a
buffer of about 2^31 bytes the index wraps in the test for room.
-/

namespace Sails.Base

open TransitionRun (Fault)
open CMemory

/-! ## The text -/

/-- Letters, digits, `-`, `_`, `.` and `~`. -/
def Unreserved (c : UInt8) : Prop :=
  (48 ≤ c ∧ c ≤ 57) ∨ (65 ≤ c ∧ c ≤ 90) ∨ (97 ≤ c ∧ c ≤ 122) ∨ c = 45 ∨ c = 95 ∨ c = 46 ∨ c = 126

instance (c : UInt8) : Decidable (Unreserved c) := inferInstanceAs (Decidable (_ ∨ _))

/-- The upper-case hexadecimal digit of a number below 16. -/
def upperHex (n : Nat) : UInt8 := (if n < 10 then 48 + n else 55 + n).toUInt8

/-- One byte: kept, a `+` for a space, `%` and two digits for any other. -/
def urlByte (c : UInt8) : Bytes :=
  if Unreserved c then [c]
  else if c = 32 then [43]
  else [37, upperHex (c.toNat / 16), upperHex (c.toNat % 16)]

/-- The encoded text. -/
def urlText (s : Bytes) : Bytes := s.flatMap urlByte

/-- **The call meets its specification**: the buffer is all the memory there is to write, and the
result is the text exactly when it fits with its NUL. -/
def UrlEncoded (s behind buffer : Bytes) : Prop :=
  ∃ buffer' ok, urlEncode (s ++ 0 :: behind) buffer buffer.length = .ok (buffer', ok) ∧
    (ok = true ↔ (urlText s).length + 1 ≤ buffer.length) ∧
    (ok = true → buffer' = splice buffer 0 (urlText s ++ [0]))

/-- The characters the loop runs over: the length is kept in an `int`. -/
def looked (s : Bytes) : Bytes := s.take (toInt32 s.length).toNat

/-- The tests for room let the code of this byte pass. -/
def Passes (size index : Nat) (c : UInt8) : Prop :=
  toInt32 (index + 2) ≤ size ∧ ((urlByte c).length = 3 → toInt32 (index + 4) ≤ size)

/-- A byte the loop comes to and lets pass without room for its code. -/
def ReachesOverflow (size : Nat) (s : Bytes) : Prop :=
  ∃ a c b, s = a ++ c :: b ∧ (urlText a).length < size ∧ Passes size (urlText a).length c ∧
    size < (urlText (a ++ [c])).length + 1

/-- A byte from 0x80 on the loop comes to with room for its code. -/
def ReachesNegative (size : Nat) (s : Bytes) : Prop :=
  ∃ a c b, s = a ++ c :: b ∧ 128 ≤ c ∧ (urlText (a ++ [c])).length + 1 ≤ size

/-! ## The code makes this text -/

private theorem encodedByte_facts :
    ∀ n < 256, encodedByte n.toUInt8 = urlByte n.toUInt8 := by
  decide +kernel

theorem encodedByte_eq (c : UInt8) : encodedByte c = urlByte c := by
  have h := encodedByte_facts c.toNat c.toNat_lt
  have hc : c.toNat.toUInt8 = c := UInt8.ofNat_toNat
  rwa [hc] at h

theorem encodedText_eq (s : Bytes) : encodedText s = urlText s := by
  rw [encodedText, urlText, funext encodedByte_eq]

theorem urlText_cons (c : UInt8) (s : Bytes) : urlText (c :: s) = urlByte c ++ urlText s :=
  List.flatMap_cons

theorem urlText_append (s t : Bytes) : urlText (s ++ t) = urlText s ++ urlText t :=
  List.flatMap_append

/-- Every byte that is not ASCII takes three characters. -/
theorem length_urlByte_of_not_ascii {c : UInt8} (h : ¬c < 128) : (urlByte c).length = 3 := by
  obtain ⟨hspace, hescaped⟩ := escaped_of_not_ascii h
  rw [← encodedByte_eq, encodedByte, if_neg hspace, if_pos hescaped]
  rfl

theorem length_le_urlText (s : Bytes) : s.length ≤ (urlText s).length := by
  rw [← encodedText_eq]
  exact length_le_encodedText s

theorem length_urlText_take_le (s : Bytes) (n : Nat) :
    (urlText (s.take n)).length ≤ (urlText s).length := by
  have hsplit : urlText s = urlText (s.take n) ++ urlText (s.drop n) := by
    rw [← urlText_append, List.take_append_drop]
  rw [hsplit, List.length_append]
  exact Nat.le_add_right ..

theorem looked_eq {s : Bytes} (h : s.length < 2 ^ 31) : looked s = s := by
  rw [looked, toInt32_of_lt h, Int.toNat_natCast, List.take_length]

/-! ## The loop -/

section Loop

variable {size index : Nat} {buffer cs : Bytes} {c : UInt8}

/-- A code that a test stops ends the loop, whatever the character. -/
theorem urlEncodeFrom_stopped (hstop : ¬Passes size index c) :
    urlEncodeFrom size buffer index (c :: cs) = .ok (buffer, false) := by
  rw [Passes, ← encodedByte_eq] at hstop
  rw [urlEncodeFrom]
  by_cases htwo : (size : Int) < toInt32 (index + 2)
  · exact if_pos htwo
  rw [if_neg htwo]
  -- only an escape is tested again
  have hfour : ¬((encodedByte c).length = 3 → toInt32 (index + 4) ≤ size) := fun h =>
    hstop ⟨Int.not_lt.mp htwo, h⟩
  obtain ⟨hlen, hlt⟩ := Classical.not_imp.mp hfour
  by_cases hspace : c = 32
  · rw [encodedByte, if_pos hspace, List.length_singleton] at hlen
    cases hlen
  by_cases hescaped : Escaped c
  · rw [if_neg hspace, if_pos hescaped, if_pos (Int.not_le.mp hlt)]
  · rw [encodedByte, if_neg hspace, if_neg hescaped, List.length_singleton] at hlen
    cases hlen

/-- In a full buffer nothing more can be written. -/
theorem urlEncodeFrom_of_full (hfull : buffer.length ≤ index)
    (hpass : toInt32 (index + 2) ≤ size ∧ toInt32 (index + 4) ≤ size) :
    urlEncodeFrom size buffer index cs = .error .outOfBounds := by
  have hwrite (c : UInt8) : writeAt buffer index c = .error .outOfBounds :=
    if_neg (Nat.not_lt.mpr hfull)
  cases cs with
  | nil =>
    rw [urlEncodeFrom, hwrite]
    rfl
  | cons c cs =>
    rw [urlEncodeFrom, if_neg (Int.not_lt.mpr hpass.1)]
    simp only [hwrite, if_neg (Int.not_lt.mpr hpass.2), bind, Except.bind]
    split_ifs <;> rfl

/-- A code that is let through without room for it overruns the buffer. -/
theorem urlEncodeFrom_overflow (hsize : buffer.length = size) (hint : size < 2 ^ 31)
    (hindex : index < size) (hpass : Passes size index c)
    (hroom : size < index + (urlByte c).length + 1) :
    urlEncodeFrom size buffer index (c :: cs) = .error .outOfBounds := by
  have hwraps : toInt32 (2 ^ 31 + 1) < 0 ∧ toInt32 (2 ^ 31 + 3) < 0 := by decide
  -- the last byte but none of the buffer is written, and the loop goes on behind it
  have hlast {buffer : Bytes} {cs : Bytes} (hlen : buffer.length = size) (hend : size = 2 ^ 31 - 1) :
      urlEncodeFrom size buffer size cs = .error .outOfBounds := by
    refine urlEncodeFrom_of_full hlen.le ?_
    rw [show size + 2 = 2 ^ 31 + 1 by omega, show size + 4 = 2 ^ 31 + 3 by omega]
    omega
  obtain ⟨htwo, hfour⟩ := hpass
  rw [← encodedByte_eq] at hroom hfour
  have hone (hlen : (encodedByte c).length = 1) : size = 2 ^ 31 - 1 ∧ index + 1 = size := by
    by_contra hnot
    rw [toInt32_of_lt (by omega)] at htwo
    omega
  rw [urlEncodeFrom, if_neg (Int.not_lt.mpr htwo)]
  by_cases hspace : c = 32
  · obtain ⟨hend, hnext⟩ := hone (by rw [encodedByte, if_pos hspace]; rfl)
    rw [if_pos hspace, writeAt_eq (by omega), hnext]
    exact hlast (by rw [length_splice (by simp; omega), hsize]) hend
  by_cases hescaped : Escaped c
  · have hlen : (encodedByte c).length = 3 := by
      rw [encodedByte, if_neg hspace, if_pos hescaped]
      rfl
    have hfour := hfour hlen
    have hlarge : 2 ^ 31 ≤ index + 4 := by
      by_contra hnot
      rw [toInt32_of_lt (by omega)] at hfour
      omega
    rw [if_neg hspace, if_pos hescaped, if_neg (Int.not_lt.mpr hfour)]
    -- three writes, each of which may be outside; behind them the buffer is full
    rcases writeAt_cases buffer index 37 with h₁ | ⟨buffer₁, h₁, hlen₁, hlt₁⟩
    · simp only [h₁, bind, Except.bind]
    cases hhigh : hexcharAt (charValue c / 16) with
    | error e => simp only [h₁, hexcharAt_error hhigh, bind, Except.bind]
    | ok high =>
      rcases writeAt_cases buffer₁ (index + 1) high with h₂ | ⟨buffer₂, h₂, hlen₂, hlt₂⟩
      · simp only [h₁, h₂, bind, Except.bind]
      cases hlow : hexcharAt (charValue c % 16) with
      | error e => simp only [h₁, h₂, hexcharAt_error hlow, bind, Except.bind]
      | ok low =>
        rcases writeAt_cases buffer₂ (index + 2) low with h₃ | ⟨buffer₃, h₃, hlen₃, hlt₃⟩
        · simp only [h₁, h₂, h₃, bind, Except.bind]
        have hnext : index + 3 = size := by omega
        simp only [h₁, h₂, h₃, hnext, bind, Except.bind]
        exact hlast (by omega) (by omega)
  · obtain ⟨hend, hnext⟩ := hone (by rw [encodedByte, if_neg hspace, if_neg hescaped]; rfl)
    rw [if_neg hspace, if_neg hescaped, writeAt_eq (by omega), hnext]
    exact hlast (by rw [length_splice (by simp; omega), hsize]) hend

/-- The loop comes to what stands behind codes with room for them. -/
theorem urlEncodeFrom_of_reached {a rest : Bytes} (hsize : size ≤ buffer.length)
    (hroom : index + (urlText a).length + 1 ≤ size)
    (hfault : ∀ buffer' : Bytes, buffer'.length = buffer.length →
      urlEncodeFrom size buffer' (index + (urlText a).length) rest = .error .outOfBounds) :
    urlEncodeFrom size buffer index (a ++ rest) = .error .outOfBounds := by
  induction a generalizing buffer index with
  | nil => exact hfault buffer rfl
  | cons x a ih =>
    rw [urlText_cons, List.length_append] at hroom
    rw [List.cons_append]
    by_cases hx : x < 128
    · rw [← encodedByte_eq] at hroom
      have hlen : (splice buffer index (encodedByte x)).length = buffer.length :=
        length_splice (by omega)
      rw [urlEncodeFrom_cons hsize hx (by omega)]
      refine ih (hlen ▸ hsize) (by omega) fun buffer' hbuffer' => ?_
      have hrest := hfault buffer' (hbuffer'.trans hlen)
      rwa [urlText_cons, List.length_append, ← Nat.add_assoc, ← encodedByte_eq] at hrest
    · rw [length_urlByte_of_not_ascii hx] at hroom
      exact urlEncodeFrom_cons_of_not_ascii hsize hx (by omega)

/-- A text that does not fit is given up in front of the first code that is too long. -/
theorem urlEncodeFrom_short (hsize : size ≤ buffer.length)
    (hreached : ∀ a c b, cs = a ++ c :: b → ¬c < 128 →
      size < index + (urlText (a ++ [c])).length + 1)
    (hover : ∀ a c b, cs = a ++ c :: b → index + (urlText a).length < size →
      size < index + (urlText (a ++ [c])).length + 1 → ¬Passes size (index + (urlText a).length) c)
    (hindex : index < size) (hroom : size < index + (urlText cs).length + 1) :
    ∃ buffer', urlEncodeFrom size buffer index cs = .ok (buffer', false) := by
  induction cs generalizing buffer index with
  | nil =>
    have hempty : (urlText []).length = 0 := rfl
    omega
  | cons c cs ih =>
    by_cases hfits : index + (urlByte c).length + 1 ≤ size
    · have hascii : c < 128 := by
        by_contra hc
        have hlong := hreached [] c cs rfl hc
        rw [List.nil_append, urlText_cons, List.length_append] at hlong
        have hempty : (urlText []).length = 0 := rfl
        omega
      rw [← encodedByte_eq] at hfits
      rw [urlText_cons, ← encodedByte_eq, List.length_append] at hroom
      have hlen : (splice buffer index (encodedByte c)).length = buffer.length :=
        length_splice (by omega)
      rw [urlEncodeFrom_cons hsize hascii hfits]
      apply ih (hlen ▸ hsize)
      · intro a x b hcs hx
        have hlong := hreached (c :: a) x b (by rw [hcs, List.cons_append]) hx
        rw [List.cons_append, urlText_cons, List.length_append, ← encodedByte_eq] at hlong
        omega
      · intro a x b hcs hbefore hlong
        have hstop := hover (c :: a) x b (by rw [hcs, List.cons_append])
        rw [List.cons_append, urlText_cons, urlText_cons, List.length_append, List.length_append,
          ← encodedByte_eq, ← Nat.add_assoc, ← Nat.add_assoc] at hstop
        exact hstop hbefore hlong
      · omega
      · omega
    · have hstop := hover [] c cs rfl hindex
      rw [List.nil_append, urlText_cons, List.length_append] at hstop
      have hempty : (urlText []).length = 0 := rfl
      exact ⟨buffer, urlEncodeFrom_stopped (hstop (by omega))⟩

end Loop

/-! ## The call -/

section Call

variable {s buffer : Bytes}

/-- The call on a string, once its length is known. -/
theorem urlEncode_eq (hs : ∀ c ∈ s, c ≠ 0) (behind buffer : Bytes) (encodeLen : Int) :
    urlEncode (s ++ 0 :: behind) buffer encodeLen =
      if encodeLen < toInt32 s.length then .ok (buffer, false)
      else urlEncodeFrom encodeLen buffer 0 (looked s) := by
  have htake : (s ++ 0 :: behind).take (toInt32 s.length).toNat = looked s := by
    have hle := toInt32_le s.length
    rw [looked, List.take_append_of_le_length (by omega)]
  simp only [urlEncode, strlen_append_zero hs, bind, Except.bind, pure, Except.pure, htake]

/-- What the loop returns if it meets no byte it cannot index and no code that is let through
without room for it. -/
theorem urlEncodeFrom_looked (hsize : 1 ≤ buffer.length)
    (hreached : ¬ReachesNegative buffer.length (looked s))
    (hover : ¬ReachesOverflow buffer.length (looked s)) :
    ∃ buffer' ok, urlEncodeFrom buffer.length buffer 0 (looked s) = .ok (buffer', ok) ∧
      (ok = true ↔ (urlText (looked s)).length + 1 ≤ buffer.length) ∧
      (ok = true → buffer' = splice buffer 0 (urlText (looked s) ++ [0])) := by
  by_cases hroom : (urlText (looked s)).length + 1 ≤ buffer.length
  -- the whole text fits, so that every byte is reached
  · have hascii : ∀ c ∈ looked s, c < 128 := by
      intro c hc
      by_contra hlarge
      obtain ⟨a, b, hab⟩ := List.append_of_mem hc
      apply hreached
      refine ⟨a, c, b, hab, UInt8.not_lt.mp hlarge, ?_⟩
      have hle : (urlText (looked s)).length = (urlText (a ++ [c])).length + (urlText b).length := by
        rw [hab, ← List.length_append, ← urlText_append, List.append_assoc]
        rfl
      omega
    have hfits : 0 + (encodedText (looked s)).length + 1 ≤ buffer.length := by
      rw [encodedText_eq]
      omega
    have hrun := urlEncodeFrom_eq (Nat.le_refl buffer.length) hascii hfits
    rw [encodedText_eq] at hrun
    exact ⟨_, true, hrun, ⟨fun _ => hroom, fun _ => rfl⟩, fun _ => rfl⟩
  · have hlong (a : Bytes) (c : UInt8) (b : Bytes) (hab : looked s = a ++ c :: b) (hc : ¬c < 128) :
        buffer.length < 0 + (urlText (a ++ [c])).length + 1 := by
      by_contra hfits
      exact hreached ⟨a, c, b, hab, UInt8.not_lt.mp hc, by omega⟩
    have hstop (a : Bytes) (c : UInt8) (b : Bytes) (hab : looked s = a ++ c :: b)
        (hbefore : 0 + (urlText a).length < buffer.length)
        (hfull : buffer.length < 0 + (urlText (a ++ [c])).length + 1) :
        ¬Passes buffer.length (0 + (urlText a).length) c := by
      rw [Nat.zero_add] at hbefore hfull ⊢
      exact fun hpass => hover ⟨a, c, b, hab, hbefore, hpass, hfull⟩
    obtain ⟨buffer', hrun⟩ := urlEncodeFrom_short (Nat.le_refl _) hlong hstop hsize (by omega)
    exact ⟨buffer', false, hrun, ⟨fun h => (by cases h), fun h => absurd h hroom⟩,
      fun h => (by cases h)⟩

/-- **When `url_encode` meets its specification.** -/
theorem urlEncoded_iff (s behind buffer : Bytes) (hs : ∀ c ∈ s, c ≠ 0) (hsize : 1 ≤ buffer.length)
    (hint : buffer.length < 2 ^ 31) :
    UrlEncoded s behind buffer ↔
      (buffer.length : Int) < toInt32 s.length ∨
        ¬ReachesNegative buffer.length (looked s) ∧ ¬ReachesOverflow buffer.length (looked s) ∧
          (s.length < 2 ^ 31 ∨ buffer.length < (urlText (looked s)).length + 1) := by
  have hle := length_le_urlText s
  have hint32 := toInt32_le s.length
  rw [UrlEncoded, urlEncode_eq hs]
  by_cases hshort : (buffer.length : Int) < toInt32 s.length
  -- the first test: the text is no shorter than the string
  · rw [if_pos hshort]
    refine ⟨fun _ => .inl hshort, fun _ => ⟨buffer, false, rfl, ⟨fun h => (by cases h), ?_⟩,
      fun h => (by cases h)⟩⟩
    intro hfits
    omega
  rw [if_neg hshort]
  constructor
  · rintro ⟨buffer', ok, hrun, hok, htext⟩
    right
    have hnot : ¬ReachesNegative buffer.length (looked s) := by
      rintro ⟨a, c, b, hab, hc, hroom⟩
      have hascii := UInt8.not_lt.mpr hc
      rw [urlText_append, List.length_append, urlText_cons, List.length_append,
        length_urlByte_of_not_ascii hascii] at hroom
      rw [hab, urlEncodeFrom_of_reached (Nat.le_refl _) (by omega) fun buffer' hlen =>
        urlEncodeFrom_cons_of_not_ascii hlen.ge hascii (by omega)] at hrun
      cases hrun
    have hover : ¬ReachesOverflow buffer.length (looked s) := by
      rintro ⟨a, c, b, hab, hbefore, hpass, hfull⟩
      have hempty : (urlText []).length = 0 := rfl
      rw [urlText_append, List.length_append, urlText_cons, List.length_append] at hfull
      rw [hab, urlEncodeFrom_of_reached (Nat.le_refl _) (by omega) fun buffer' hlen =>
        urlEncodeFrom_overflow hlen hint (by omega) ((Nat.zero_add _).symm ▸ hpass) (by omega)] at hrun
      cases hrun
    refine ⟨hnot, hover, ?_⟩
    by_contra! hlong
    obtain ⟨hlarge, hfits⟩ := hlong
    -- text is returned, but only of the characters that were looked at
    obtain ⟨buffer₁, ok₁, hrun₁, hok₁, -⟩ := urlEncodeFrom_looked hsize hnot hover
    rw [hrun] at hrun₁
    cases hrun₁
    have hwhole := hok.mp (hok₁.mpr (by omega))
    omega
  · rintro (hlt | ⟨hnot, hover, hwhole⟩)
    · exact absurd hlt hshort
    obtain ⟨buffer', ok, hrun, hok, htext⟩ := urlEncodeFrom_looked hsize hnot hover
    refine ⟨buffer', ok, hrun, ?_⟩
    rcases hwhole with hlt | hlong
    · rw [looked_eq hlt] at hok htext
      exact ⟨hok, htext⟩
    · have hfalse : ok ≠ true := fun h => by
        have hfits := hok.mp h
        omega
      have hpart := length_urlText_take_le s (toInt32 s.length).toNat
      rw [looked] at hlong
      exact ⟨⟨fun h => absurd h hfalse, fun h => by omega⟩, fun h => absurd h hfalse⟩

/-- `a b/` in a buffer of seven. -/
theorem urlEncoded_iff_slash : UrlEncoded [97, 32, 98, 47] [] (List.replicate 7 0) :=
  (urlEncoded_iff [97, 32, 98, 47] [] (List.replicate 7 0) (by simp) (by decide) (by decide)).mpr
    (.inr ⟨by
      rintro ⟨a, c, b, hab, hc, -⟩
      rw [looked_eq (by decide)] at hab
      have hmem : c ∈ [97, 32, 98, 47] := by
        rw [hab]
        simp
      have hascii : ∀ x ∈ ([97, 32, 98, 47] : Bytes), x < 128 := by simp
      exact absurd (hascii c hmem) (UInt8.not_lt.mpr hc), by
      rintro ⟨a, c, b, hab, -, -, hfull⟩
      -- the whole text fits
      have hle : (urlText (a ++ [c])).length ≤ (urlText (looked [97, 32, 98, 47])).length := by
        rw [hab, List.append_cons a c b, urlText_append (a ++ [c]), List.length_append]
        exact Nat.le_add_right ..
      rw [looked_eq (by decide)] at hle
      exact absurd hfull (Nat.not_lt.mpr (Nat.succ_le_succ hle)), .inl (by decide)⟩)

/-- The one byte 0x80, with room for its code. -/
theorem urlEncoded_negative : ¬UrlEncoded [128] [] (List.replicate 4 0) := by
  rintro ⟨buffer', ok, hrun, -⟩
  have hfault : urlEncode ([128] ++ 0 :: []) (List.replicate 4 0) (List.replicate 4 0).length =
      .error .outOfBounds := by decide
  cases hfault.symm.trans hrun

end Call

end Sails.Base
