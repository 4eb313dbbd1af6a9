import Sails.Library.CMemory

/-!
# Reading texts of lines

Readers that cut a text at its first separator, each with the text it undoes, whatever follows.

- `cutAt`, `cutAtLast`: the parts before and behind a byte
- `cutLine`: the line before CR LF
- `readDecimal`: the number that `CMemory.decimal` writes
-/

namespace TextReader

open CMemory (Bytes decimal mem_decimal)

variable {c : UInt8} {s t rest : Bytes}

/-- CR LF. -/
def crlf : Bytes := [13, 10]

/-- What stands before the first `c` and behind it. -/
def cutAt (c : UInt8) : Bytes → Option (Bytes × Bytes)
  | [] => none
  | b :: s => if b = c then some ([], s) else (cutAt c s).map fun p => (b :: p.1, p.2)

/-- What stands before the last `c` and behind it. -/
def cutAtLast (c : UInt8) (s : Bytes) : Option (Bytes × Bytes) :=
  (cutAt c s.reverse).map fun p => (p.2.reverse, p.1.reverse)

/-- The first line, without its end, and what follows it; a CR that is not followed by a LF is no
line end. -/
def cutLine : Bytes → Option (Bytes × Bytes)
  | [] => none
  | b :: s =>
    if b = 13 ∧ s.head? = some 10 then some ([], s.tail)
    else (cutLine s).map fun p => (b :: p.1, p.2)

/-- The number the digits stand for; `none` if a byte is no digit, or there is none. -/
def readDecimal (s : Bytes) : Option Nat :=
  if s ≠ [] ∧ s.all fun c => 48 ≤ c ∧ c ≤ 57 then
    some (s.foldl (fun n c => 10 * n + (c.toNat - 48)) 0)
  else none

/-- The text behind `lead`, if it begins with it. -/
def cutPrefix (lead s : Bytes) : Option Bytes :=
  if lead.isPrefixOf s then some (s.drop lead.length) else none

theorem cutAt_append (h : c ∉ s) : cutAt c (s ++ c :: rest) = some (s, rest) := by
  induction s with
  | nil => simp [cutAt]
  | cons b s ih =>
    rw [List.mem_cons, not_or] at h
    rw [List.cons_append, cutAt, if_neg (Ne.symm h.1), ih h.2, Option.map_some]

theorem cutAtLast_append (h : c ∉ t) : cutAtLast c (s ++ c :: t) = some (s, t) := by
  have hreverse : (s ++ c :: t).reverse = t.reverse ++ c :: s.reverse := by simp
  rw [cutAtLast, hreverse, cutAt_append (by simpa using h), Option.map_some, List.reverse_reverse,
    List.reverse_reverse]

theorem cutLine_append (h : 13 ∉ s) : cutLine (s ++ crlf ++ rest) = some (s, rest) := by
  induction s with
  | nil => simp [cutLine, crlf]
  | cons b s ih =>
    rw [List.mem_cons, not_or] at h
    have hne : ¬ (b = 13 ∧ (s ++ crlf ++ rest).head? = some 10) := fun hb => h.1 hb.1.symm
    rw [List.cons_append, List.cons_append, cutLine, if_neg hne, ih h.2, Option.map_some]

theorem cutPrefix_append (lead rest : Bytes) : cutPrefix lead (lead ++ rest) = some rest := by
  rw [cutPrefix, if_pos (by simp), List.drop_left]

theorem toNat_of_isDigit {d : Char} (h : d.isDigit) : d.toNat.toUInt8.toNat = d.toNat := by
  simp only [Char.isDigit, Bool.and_eq_true, decide_eq_true_eq] at h
  have hhigh : d.toNat ≤ 57 := h.2
  simp only [Nat.toUInt8, UInt8.toNat_ofNat']
  omega

/-- Reading the digits of a number gives the number. -/
theorem readDecimal_decimal (n : Nat) : readDecimal (decimal n) = some n := by
  have hne : decimal n ≠ [] := by
    rw [decimal, ne_eq, List.map_eq_nil_iff]
    exact Nat.toDigits_ne_nil
  have hdigits : (decimal n).all fun c => 48 ≤ c ∧ c ≤ 57 :=
    List.all_eq_true.mpr fun c hc => decide_eq_true (mem_decimal hc)
  rw [readDecimal, if_pos ⟨hne, hdigits⟩]
  -- byte by byte this is the core library's reading of the digits
  have hread : ∀ (ds : List Char) (k : Nat), (∀ d ∈ ds, d.isDigit) →
      (ds.map fun d => d.toNat.toUInt8).foldl (fun n c => 10 * n + (c.toNat - 48)) k =
        Nat.ofDigitChars 10 ds k := by
    intro ds
    induction ds with
    | nil => intro k _; simp
    | cons d ds ih =>
      intro k hds
      have hd := toNat_of_isDigit (hds d (List.mem_cons_self ..))
      rw [List.map_cons, List.foldl_cons, hd, ih _ fun x hx => hds x (List.mem_cons_of_mem _ hx),
        Nat.ofDigitChars_cons]
      rfl
  have hdigits : ∀ d ∈ Nat.toDigits 10 n, d.isDigit := fun d hd =>
    Nat.isDigit_of_mem_toDigits (by decide) (by decide) hd
  rw [decimal, hread _ 0 hdigits, Nat.ofDigitChars_ten_toDigits]

end TextReader
