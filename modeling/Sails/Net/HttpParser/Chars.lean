import Sails.Library.CMemory

/-!
# Character classes of `http_parser.cc`

The tables and macros the parser classifies bytes with, in strict mode (`HTTP_PARSER_STRICT` is 1
unless somebody defines it otherwise).

- `tokens`, `unhex`, `normalUrlChar`: the tables; where an initialiser is shorter than its array
  the rest of the array is zero
- `lower`, `isAlpha`, .., `isHostChar`: the macros
-/

namespace Sails.HttpParser

open CMemory

/-- The code of a character literal. -/
def code (c : Char) : UInt8 := c.toNat.toUInt8

def cr : UInt8 := 13

def lf : UInt8 := 10

/-! ## Tables -/

/-- `tokens`: the lower case of every token character, zero for the others. -/
def tokens : Bytes :=
  List.replicate 32 0 ++
  [0, 33, 0, 35, 36, 37, 38, 39,
   0, 0, 42, 43, 0, 45, 46, 0,
   48, 49, 50, 51, 52, 53, 54, 55,
   56, 57, 0, 0, 0, 0, 0, 0,
   0, 97, 98, 99, 100, 101, 102, 103,
   104, 105, 106, 107, 108, 109, 110, 111,
   112, 113, 114, 115, 116, 117, 118, 119,
   120, 121, 122, 0, 0, 0, 94, 95,
   96, 97, 98, 99, 100, 101, 102, 103,
   104, 105, 106, 107, 108, 109, 110, 111,
   112, 113, 114, 115, 116, 117, 118, 119,
   120, 121, 122, 0, 124, 0, 126, 0]

/-- The macro `TOKEN`. -/
def token (c : UInt8) : UInt8 := tokens.getD c.toNat 0

/-- `unhex`: the value of a hexadecimal digit, -1 for the other characters below 128. The
initialiser has 128 elements, the array 256. -/
def unhexTable : List Int :=
  List.replicate 48 (-1) ++
  [0, 1, 2, 3, 4, 5, 6, 7, 8, 9, -1, -1, -1, -1, -1, -1,
   -1, 10, 11, 12, 13, 14, 15, -1, -1, -1, -1, -1, -1, -1, -1, -1] ++
  List.replicate 16 (-1) ++
  [-1, 10, 11, 12, 13, 14, 15, -1, -1, -1, -1, -1, -1, -1, -1, -1] ++
  List.replicate 16 (-1)

/-- `unhex[c]`; `none` is -1. -/
def unhex (c : UInt8) : Option Nat :=
  match unhexTable.getD c.toNat 0 with
  | .ofNat n => some n
  | .negSucc _ => none

/-- `normal_url_char`, one bit a character. -/
def normalUrlChar : Bytes :=
  [0, 0, 0, 0, 0xF6, 0xFF, 0xFF, 0x7F, 0xFF, 0xFF, 0xFF, 0xFF, 0xFF, 0xFF, 0xFF, 0x7F]

/-! ## Macros -/

def lower (c : UInt8) : UInt8 := c ||| 0x20

def isAlpha (c : UInt8) : Bool := code 'a' ≤ lower c && lower c ≤ code 'z'

def isNum (c : UInt8) : Bool := code '0' ≤ c && c ≤ code '9'

def isAlphanum (c : UInt8) : Bool := isAlpha c || isNum c

def isHex (c : UInt8) : Bool := isNum c || (code 'a' ≤ lower c && lower c ≤ code 'f')

def isMark (c : UInt8) : Bool := c ∈ ascii "-_.!~*'()"

def isUserinfoChar (c : UInt8) : Bool := isAlphanum c || isMark c || c ∈ ascii "%;:&=+$,"

/-- The macro `IS_URL_CHAR`. -/
def isUrlChar (c : UInt8) : Bool :=
  normalUrlChar.getD (c >>> 3).toNat 0 &&& (1 <<< (c &&& 7)) ≠ 0

def isHostChar (c : UInt8) : Bool := isAlphanum c || c = code '.' || c = code '-'

/-- The value of a digit, `ch - '0'`. -/
def digit (c : UInt8) : Nat := c.toNat - 48

/-! ## Facts about the classes

Each of them is checked for all bytes. -/

/-- What holds of the 256 bytes one by one holds of every byte. -/
theorem forall_byte {P : UInt8 → Prop} (h : ∀ n : Fin 256, P (UInt8.ofNat n)) (c : UInt8) : P c := by
  have hc := h ⟨c.toNat, c.toNat_lt⟩
  rwa [UInt8.ofNat_toNat] at hc

/-- A condition on the bytes of a text can be checked byte by byte. -/
theorem forall_mem_of_all {l : Bytes} {P : UInt8 → Prop} [DecidablePred P]
    (h : l.all (fun c => decide (P c)) = true) : ∀ c ∈ l, P c := fun c hc =>
  of_decide_eq_true (List.all_eq_true.mp h c hc)

theorem forall_head_of_all {l : Bytes} {P : UInt8 → Prop} [DecidablePred P]
    (h : (l.take 1).all (fun c => decide (P c)) = true) : ∀ c ∈ l.head?, P c := by
  intro c hc
  cases l with
  | nil => cases hc
  | cons d l =>
    cases hc
    exact forall_mem_of_all h c (List.mem_cons_self ..)

theorem unhex_lt {c : UInt8} {n : Nat} (h : unhex c = some n) : n < 16 := by
  have hall : ∀ v ∈ unhex c, v < 16 :=
    forall_byte (P := fun c => ∀ v ∈ unhex c, v < 16) (by decide +kernel) c
  exact hall n h

theorem digit_lt {c : UInt8} (h : isNum c = true) : digit c < 10 := by
  revert h
  exact forall_byte (P := fun c => isNum c = true → digit c < 10) (by decide +kernel) c

end Sails.HttpParser
