import Sails.Library.CMemory

/-!
# Decimal fields, printed and scanned

The part of `strftime`, `snprintf` and `sscanf` that fixed formats of numbers rest on.

- `padded`: a number in so many digits, as `%02d` and `%m` print it
- `decimal_eq_padded`: what `%d` prints, when the number of digits is known
- `scanNumber`, `scan`: `%Nu` and literal characters, up to the first one that does not match
- `scanNumber_padded`: a padded number is scanned back
-/

namespace Scanf

open CMemory

/-! ## Digits -/

/-- The digit `d`. -/
def digit (d : Nat) : UInt8 := (48 + d).toUInt8

/-- `isdigit`. -/
def isDigit (c : UInt8) : Bool := 48 ≤ c ∧ c ≤ 57

/-- `isspace` in the C locale. -/
def isSpace (c : UInt8) : Bool := c = 32 ∨ 9 ≤ c ∧ c ≤ 13

/-- The last `k` digits of a number. -/
def padded : Nat → Nat → Bytes
  | 0, _ => []
  | k + 1, n => padded k (n / 10) ++ [digit (n % 10)]

/-- The number that these digits make. -/
def value (digits : Bytes) : Nat := digits.foldl (fun n c => n * 10 + (c.toNat - 48)) 0

theorem toNat_digit {d : Nat} (h : d < 10) : (digit d).toNat = 48 + d := by
  rw [digit, Nat.toUInt8, UInt8.toNat_ofNat']
  exact Nat.mod_eq_of_lt (by omega)

theorem isDigit_digit {d : Nat} (h : d < 10) : isDigit (digit d) = true := by
  have hval := toNat_digit h
  refine decide_eq_true ⟨?_, ?_⟩
  · exact UInt8.le_iff_toNat_le.mpr (hval ▸ Nat.le_add_right 48 d)
  · exact UInt8.le_iff_toNat_le.mpr (hval ▸ (by omega : 48 + d ≤ 57))

@[simp] theorem length_padded (k n : Nat) : (padded k n).length = k := by
  induction k generalizing n with
  | zero => rfl
  | succ k ih => rw [padded, List.length_append, ih, List.length_singleton]

theorem isDigit_of_mem_padded {k n : Nat} {c : UInt8} (h : c ∈ padded k n) : isDigit c = true := by
  induction k generalizing n with
  | zero => cases h
  | succ k ih =>
    rcases List.mem_append.mp h with h | h
    · exact ih h
    · rw [List.mem_singleton.mp h]
      exact isDigit_digit (Nat.mod_lt n (by decide))

theorem value_padded {k n : Nat} (h : n < 10 ^ k) : value (padded k n) = n := by
  induction k generalizing n with
  | zero =>
    rw [Nat.pow_zero, Nat.lt_one_iff] at h
    rw [h]
    rfl
  | succ k ih =>
    have hdiv : n / 10 < 10 ^ k := by
      rw [Nat.pow_succ] at h
      omega
    have hlast := toNat_digit (Nat.mod_lt n (by decide : 0 < 10))
    have hval : value (padded (k + 1) n) =
        value (padded k (n / 10)) * 10 + ((digit (n % 10)).toNat - 48) := by
      rw [value, padded, List.foldl_append]
      rfl
    rw [hval, ih hdiv, hlast]
    omega

theorem digitChar_eq : ∀ d < 10, (Nat.digitChar d).toNat.toUInt8 = digit d := by decide

/-- A number of `k + 1` digits is printed in `k + 1` digits. -/
theorem decimal_eq_padded {k n : Nat} (hlow : 10 ^ k ≤ n) (hhigh : n < 10 ^ (k + 1)) :
    decimal n = padded (k + 1) n := by
  induction k generalizing n with
  | zero =>
    have hn : n < 10 := hhigh
    rw [decimal, Nat.toDigits_of_lt_base hn, padded, padded, Nat.mod_eq_of_lt hn]
    exact congrArg (fun c => [c]) (digitChar_eq n hn)
  | succ k ih =>
    have hdiv : 10 ^ k ≤ n / 10 ∧ n / 10 < 10 ^ (k + 1) := by
      rw [Nat.pow_succ] at hlow hhigh
      omega
    have hbase : 10 ≤ n := by
      have hpos : 0 < 10 ^ k := Nat.pow_pos (by decide)
      rw [Nat.pow_succ] at hlow
      omega
    have hrest := ih hdiv.1 hdiv.2
    rw [decimal] at hrest
    rw [decimal, Nat.toDigits_of_base_le (by decide) hbase, List.map_append, hrest, padded]
    exact congrArg (padded (k + 1) (n / 10) ++ [·]) (digitChar_eq (n % 10) (Nat.mod_lt n (by decide)))

/-! ## Scanning -/

/-- A directive of a format. -/
inductive Directive where
  /-- `%Nu` with a width of less than ten characters -/
  | number (width : Nat)
  /-- a character that is no space -/
  | literal (c : UInt8)

/-- The digits of a number, after its sign. -/
def scanDigits (width : Nat) (s : Bytes) : Option (Nat × Bytes) :=
  let digits := (s.take width).takeWhile isDigit
  if digits = [] then none else some (value digits, s.drop digits.length)

/-- `%Nu`: spaces are skipped, and a sign counts as one of the characters. -/
def scanNumber (width : Nat) (s : Bytes) : Option (UInt32 × Bytes) :=
  match s.dropWhile isSpace with
  | [] => none
  | c :: s' =>
    if c = 43 then (scanDigits (width - 1) s').map fun r => (UInt32.ofNat r.1, r.2)
    else if c = 45 then (scanDigits (width - 1) s').map fun r => (-UInt32.ofNat r.1, r.2)
    else (scanDigits width (c :: s')).map fun r => (UInt32.ofNat r.1, r.2)

/-- `sscanf`: the numbers that are assigned, one after the other. -/
def scan : List Directive → Bytes → List UInt32
  | [], _ => []
  | .literal _ :: _, [] => []
  | .literal c :: ds, x :: s => if x = c then scan ds s else []
  | .number width :: ds, s =>
    match scanNumber width s with
    | some (n, s') => n :: scan ds s'
    | none => []

/-- A digit is neither skipped nor a sign. -/
theorem scanNumber_of_isDigit {width : Nat} {c : UInt8} (hc : isDigit c = true) (s : Bytes) :
    scanNumber width (c :: s) =
      (scanDigits width (c :: s)).map fun r => (UInt32.ofNat r.1, r.2) := by
  obtain ⟨hlow, hhigh⟩ := of_decide_eq_true hc
  have hlow' : 48 ≤ c.toNat := hlow
  have hne (x : UInt8) (hx : x.toNat < 48) : c ≠ x := by
    rintro rfl
    omega
  have hspace : ¬isSpace c = true := by
    intro h
    rcases of_decide_eq_true h with h | ⟨-, h⟩
    · exact hne 32 (by decide) h
    · have hle : c.toNat ≤ 13 := h
      omega
  rw [scanNumber, List.dropWhile_cons_of_neg hspace]
  simp only [if_neg (hne 43 (by decide)), if_neg (hne 45 (by decide))]

/-- The digits are taken up to the width. -/
theorem scanDigits_padded {k n : Nat} (h : n < 10 ^ (k + 1)) (s : Bytes) :
    scanDigits (k + 1) (padded (k + 1) n ++ s) = some (n, s) := by
  have htake : (padded (k + 1) n ++ s).take (k + 1) = padded (k + 1) n :=
    List.take_left' (length_padded (k + 1) n)
  have hall : (padded (k + 1) n).takeWhile isDigit = padded (k + 1) n :=
    List.takeWhile_eq_self_iff.mpr fun c hc => isDigit_of_mem_padded hc
  have hne : padded (k + 1) n ≠ [] :=
    List.ne_nil_of_length_eq_add_one (length_padded (k + 1) n)
  simp only [scanDigits, htake, hall, if_neg hne, value_padded h, List.drop_left]

/-- **A padded number is scanned back**, whatever stands behind it. -/
theorem scanNumber_padded {k n : Nat} (h : n < 10 ^ (k + 1)) (s : Bytes) :
    scanNumber (k + 1) (padded (k + 1) n ++ s) = some (UInt32.ofNat n, s) := by
  obtain ⟨c, digits, hcons⟩ := List.exists_cons_of_length_eq_add_one (length_padded (k + 1) n)
  have hc : isDigit c = true := isDigit_of_mem_padded (hcons ▸ List.mem_cons_self ..)
  have hscan := scanDigits_padded h s
  rw [hcons, List.cons_append] at hscan ⊢
  rw [scanNumber_of_isDigit hc, hscan]
  rfl

end Scanf
