import Sails.Base.UrlCoding
import Sails.Library.FirstHit

/-!
# `first_index_of_substr` (`base/string.cc`)

- `matchesAt`, `searchFrom`: the two loops
- `firstIndexOfSubstr`: `first_index_of_substr`
- `matchesFrom_eq`: what the inner loop compares
- `findsFirst_iff`: the strings on which the place of the first occurrence is returned

The lengths are kept in an `int`, so that strings from `2 ^ 31` characters on are searched with other
lengths than their own; those of shorter strings suffice (`lengthsSuffice_of_lt`).
-/

namespace Sails.Base

open TransitionRun (Fault)
open CMemory
open FirstHit

/-! ## The function -/

/-- `src[i]` for an `int` that has overflowed from `2 ^ 31` on. -/
def charAt (src : Bytes) (i : Nat) : Except Fault UInt8 :=
  if i < 2 ^ 31 then byteAt src i else .error .outOfBounds

/-- The inner loop from `j` on, `count` times: whether it returns from the function. -/
def matchesFrom (src substr : Bytes) (substrLen i j : Nat) : Nat → Except Fault Bool
  | 0 => .ok false
  | count + 1 => do
    let a ← charAt src (i + j)
    let b ← charAt substr j
    if a ≠ b then return false
    -- the last character that is compared
    else if (j : Int) = substrLen - 1 then return true
    else matchesFrom src substr substrLen i (j + 1) count

/-- The inner loop. -/
def matchesAt (src substr : Bytes) (substrLen i : Nat) : Except Fault Bool :=
  matchesFrom src substr substrLen i 0 substrLen

/-- The outer loop from `i` on, `count` times. -/
def searchFrom (src substr : Bytes) (substrLen i : Nat) : Nat → Except Fault Int
  | 0 => .ok (-1)
  | count + 1 => do
    if ← matchesAt src substr substrLen i then return i
    else searchFrom src substr substrLen (i + 1) count

/-- `first_index_of_substr(src, substr)`. -/
def firstIndexOfSubstr (src substr : Bytes) : Except Fault Int := do
  -- negative for a length of `2 ^ 31`
  let srcLen := toInt32 (← strlen src)
  let substrLen := toInt32 (← strlen substr)
  if srcLen < substrLen then return -1
  else searchFrom src substr substrLen.toNat 0 srcLen.toNat

/-! ## What it is meant to return -/

/-- `t` occurs in `s` at `p`, and not before. -/
def FirstAt (s t : Bytes) (p : Nat) : Prop := t <+: s.drop p ∧ ∀ q < p, ¬ t <+: s.drop q

/-- **The first occurrence is found**, in memory that ends behind the two terminators. -/
def FindsFirst (s t : Bytes) : Prop :=
  (∀ p, FirstAt s t p → firstIndexOfSubstr (s ++ [0]) (t ++ [0]) = .ok p) ∧
  ((∀ p, ¬ t <+: s.drop p) → firstIndexOfSubstr (s ++ [0]) (t ++ [0]) = .ok (-1))

/-- The lengths that an `int` holds are enough to search `s` for `t`. -/
def LengthsSuffice (s t : Bytes) : Prop :=
  (∀ p, FirstAt s t p →
    (0 < intLength t ∧ intLength t ≤ intLength s) ∧
      p < intLength s ∧ p + intLength t ≤ 2 ^ 31 ∧
        ∀ i < p, ¬ t.take (intLength t) <+: s.drop i) ∧
  ((∀ p, ¬ t <+: s.drop p) → 0 < intLength t → intLength t ≤ intLength s →
    ∀ i < intLength s, ¬ t.take (min (intLength t) (2 ^ 31 - i)) <+: s.drop i)

/-! ## The loops -/

variable {s t : Bytes} {i j count m : Nat}

/-- One character more is a prefix when the next character agrees. -/
theorem take_succ_isPrefix {l : Bytes} (h : j < t.length) :
    t.take (j + 1) <+: l ↔ t.take j <+: l ∧ l[j]? = some t[j] := by
  induction t generalizing l j with
  | nil => cases h
  | cons c t ih =>
    cases l with
    | nil => simp
    | cons d l =>
      cases j with
      | zero => simp [eq_comm]
      | succ j =>
        have hj : j < t.length := Nat.lt_of_succ_lt_succ h
        simp only [List.take_succ_cons, List.cons_prefix_cons, ih hj, List.getElem?_cons_succ,
          List.getElem_cons_succ, and_assoc]

theorem take_prefix_mono {l : Bytes} {k k' : Nat} (hk : k ≤ k') (h : t.take k' <+: l) :
    t.take k <+: l := by
  refine List.IsPrefix.trans ?_ h
  exact List.take_prefix_take_left hk

theorem charAt_append_zero (hi : i ≤ s.length) (hlt : i < 2 ^ 31) :
    charAt (s ++ [0]) i = .ok (s[i]?.getD 0) := by
  rw [charAt, if_pos hlt, byteAt_append_zero hi, List.getD_eq_getElem?_getD]

/-- **The inner loop** compares up to the length of `substr`, and not beyond what an `int` reaches. -/
theorem matchesFrom_eq (ht : ∀ c ∈ t, c ≠ 0) (hi : i ≤ s.length) (hm : m ≤ t.length)
    (hm31 : m < 2 ^ 31) (hpre : t.take j <+: s.drop i) (hij : i + j ≤ 2 ^ 31) (hj : j < m)
    (hcount : j + count = m) :
    matchesFrom (s ++ [0]) (t ++ [0]) m i j count =
      if t.take (min m (2 ^ 31 - i)) <+: s.drop i then
        if i + m ≤ 2 ^ 31 then .ok true else .error .outOfBounds
      else .ok false := by
  -- what has been compared lies inside the text
  have hend (k : Nat) (hk : k ≤ m) (h : t.take k <+: s.drop i) : i + k ≤ s.length := by
    have hlen := h.length_le
    rw [List.length_take, List.length_drop, Nat.min_eq_left (hk.trans hm)] at hlen
    omega
  induction count generalizing j with
  | zero => omega
  | succ count ih =>
    have hjt : j < t.length := hj.trans_le hm
    rw [matchesFrom]
    by_cases hlast : i + j = 2 ^ 31
    -- the next subscript overflows
    · have hmin : min m (2 ^ 31 - i) = j := by omega
      have hfault : charAt (s ++ [0]) (i + j) = .error .outOfBounds := if_neg (by omega)
      have hover : ¬ i + m ≤ 2 ^ 31 := by omega
      rw [hfault, hmin, if_pos hpre, if_neg hover]
      rfl
    · have hnext : t.take (j + 1) <+: s.drop i ↔ s[i + j]? = some t[j] := by
        rw [take_succ_isPrefix hjt, List.getElem?_drop]
        exact and_iff_right hpre
      have htj : t[j] ≠ 0 := ht _ (List.getElem_mem hjt)
      rw [charAt_append_zero (hend j hj.le hpre) (by omega),
        charAt_append_zero hjt.le (by omega), List.getElem?_eq_getElem hjt]
      simp only [bind, Except.bind, pure, Except.pure, Option.getD_some]
      by_cases heq : s[i + j]? = some t[j]
      · have hpre' := hnext.mpr heq
        simp only [heq, Option.getD_some, ne_eq, not_true_eq_false, if_false]
        by_cases hdone : j + 1 = m
        · have hmin : min m (2 ^ 31 - i) = j + 1 := by omega
          rw [if_pos (by omega), hmin, if_pos hpre', if_pos (by omega)]
        · rw [if_neg (by omega)]
          exact ih hpre' (by omega) (by omega) (by omega)
      -- the terminator does not agree with a character either
      · have hne : s[i + j]?.getD 0 ≠ t[j] := by
          cases hs : s[i + j]? with
          | none => exact htj.symm
          | some c =>
            intro hc
            exact heq (hs.trans (congrArg some hc))
        have hnot : ¬ t.take (min m (2 ^ 31 - i)) <+: s.drop i := fun h =>
          heq (hnext.mp (take_prefix_mono (by omega) h))
        rw [if_pos hne, if_neg hnot]

/-- The place of a hit as it is returned. -/
def placeOf : Option Nat → Int
  | some p => p
  | none => -1

theorem map_placeOf_eq_some {r : Except Fault (Option Nat)} {p : Nat} :
    r.map placeOf = .ok (p : Int) ↔ r = .ok (some p) := by
  rcases r with e | _ | q
  · simp [Except.map]
  · simp [Except.map, placeOf]
  · simp only [Except.map, placeOf, Except.ok.injEq, Option.some.injEq, Int.natCast_inj]

theorem map_placeOf_eq_neg_one {r : Except Fault (Option Nat)} :
    r.map placeOf = .ok (-1) ↔ r = .ok none := by
  rcases r with e | _ | q
  · simp [Except.map]
  · simp [Except.map, placeOf]
  · simp [Except.map, placeOf]

theorem searchFrom_eq (src substr : Bytes) (m i count : Nat) :
    searchFrom src substr m i count =
      (firstHit (matchesAt src substr m) i count).map placeOf := by
  induction count generalizing i with
  | zero => rfl
  | succ count ih =>
    rw [searchFrom]
    rcases h : matchesAt src substr m i with e | _ | _
    · rw [firstHit_of_error h]
      rfl
    · rw [firstHit_of_false h, ← ih]
      rfl
    · rw [firstHit_of_true h]
      rfl

/-- The loops are gone through when the lengths, as an `int` holds them, leave something to compare. -/
theorem firstIndexOfSubstr_eq (hs : ∀ c ∈ s, c ≠ 0) (ht : ∀ c ∈ t, c ≠ 0) :
    firstIndexOfSubstr (s ++ [0]) (t ++ [0]) =
      if 0 < intLength t ∧ intLength t ≤ intLength s then
        (firstHit (matchesAt (s ++ [0]) (t ++ [0]) (intLength t)) 0 (intLength s)).map placeOf
      else .ok (-1) := by
  simp only [firstIndexOfSubstr, strlen_append_zero hs, strlen_append_zero ht, bind, Except.bind,
    pure, Except.pure, searchFrom_eq]
  by_cases hlen : toInt32 s.length < toInt32 t.length
  · rw [if_pos hlen, if_neg]
    unfold intLength
    omega
  · rw [if_neg hlen]
    by_cases hpos : 0 < intLength t
    · rw [if_pos ⟨hpos, by unfold intLength; omega⟩]
      rfl
    -- nothing is compared at any place
    · have hzero : (toInt32 t.length).toNat = 0 := Nat.eq_zero_of_not_pos hpos
      have hnone : firstHit (matchesAt (s ++ [0]) (t ++ [0]) 0) 0 (toInt32 s.length).toNat =
          .ok none := firstHit_eq_none.mpr fun q _ _ => rfl
      rw [if_neg fun h => hpos h.1, hzero, hnone]
      rfl

/-! ## The strings that are searched as they should be -/

/-- The comparison at a place that the outer loop looks at. -/
theorem matchesAt_eq (ht : ∀ c ∈ t, c ≠ 0) (hpos : 0 < intLength t) (hi : i < intLength s) :
    matchesAt (s ++ [0]) (t ++ [0]) (intLength t) i =
      if t.take (min (intLength t) (2 ^ 31 - i)) <+: s.drop i then
        if i + intLength t ≤ 2 ^ 31 then .ok true else .error .outOfBounds
      else .ok false := by
  have hlt := intLength_lt s
  exact matchesFrom_eq ht (hi.le.trans (intLength_le s)) (intLength_le t) (intLength_lt t)
    List.nil_prefix (by omega) hpos (Nat.zero_add _)

theorem matchesAt_eq_true (ht : ∀ c ∈ t, c ≠ 0) (hpos : 0 < intLength t)
    (hi : i < intLength s) :
    matchesAt (s ++ [0]) (t ++ [0]) (intLength t) i = .ok true ↔
      i + intLength t ≤ 2 ^ 31 ∧ t.take (intLength t) <+: s.drop i := by
  rw [matchesAt_eq ht hpos hi]
  by_cases hfit : i + intLength t ≤ 2 ^ 31
  · rw [Nat.min_eq_left (by omega), if_pos hfit]
    split_ifs with hpre
    · exact iff_of_true rfl ⟨hfit, hpre⟩
    · exact iff_of_false (fun h => by cases h) (fun h => hpre h.2)
  · rw [if_neg hfit]
    refine iff_of_false (fun h => ?_) (fun h => hfit h.1)
    split_ifs at h
    cases h

theorem matchesAt_eq_false (ht : ∀ c ∈ t, c ≠ 0) (hpos : 0 < intLength t)
    (hi : i < intLength s) :
    matchesAt (s ++ [0]) (t ++ [0]) (intLength t) i = .ok false ↔
      ¬ t.take (min (intLength t) (2 ^ 31 - i)) <+: s.drop i := by
  rw [matchesAt_eq ht hpos hi]
  split_ifs with hpre hfit
  · exact iff_of_false (fun h => by cases h) (not_not.mpr hpre)
  · exact iff_of_false (fun h => by cases h) (not_not.mpr hpre)
  · exact iff_of_true rfl hpre

/-- A place is returned. -/
theorem firstIndexOfSubstr_eq_some (hs : ∀ c ∈ s, c ≠ 0) (ht : ∀ c ∈ t, c ≠ 0) {p : Nat} :
    firstIndexOfSubstr (s ++ [0]) (t ++ [0]) = .ok p ↔
      (0 < intLength t ∧ intLength t ≤ intLength s) ∧ p < intLength s ∧
        (p + intLength t ≤ 2 ^ 31 ∧ t.take (intLength t) <+: s.drop p) ∧
          ∀ q < p, ¬ t.take (intLength t) <+: s.drop q := by
  rw [firstIndexOfSubstr_eq hs ht]
  by_cases hlen : 0 < intLength t ∧ intLength t ≤ intLength s
  · rw [if_pos hlen, map_placeOf_eq_some, firstHit_eq_some, Nat.zero_add]
    constructor
    · rintro ⟨-, hp, htrue, hfalse⟩
      obtain ⟨hfit, hpre⟩ := (matchesAt_eq_true ht hlen.1 hp).mp htrue
      refine ⟨hlen, hp, ⟨hfit, hpre⟩, fun q hq => ?_⟩
      have hnot := (matchesAt_eq_false ht hlen.1 (hq.trans hp)).mp (hfalse q (Nat.zero_le q) hq)
      rwa [Nat.min_eq_left (by omega)] at hnot
    · rintro ⟨-, hp, ⟨hfit, hpre⟩, hbefore⟩
      refine ⟨Nat.zero_le p, hp, (matchesAt_eq_true ht hlen.1 hp).mpr ⟨hfit, hpre⟩,
        fun q _ hq => (matchesAt_eq_false ht hlen.1 (hq.trans hp)).mpr ?_⟩
      rw [Nat.min_eq_left (by omega)]
      exact hbefore q hq
  · rw [if_neg hlen]
    refine iff_of_false (fun h => ?_) (fun h => hlen h.1)
    have hneg := Except.ok.inj h
    omega

/-- No place is returned. -/
theorem firstIndexOfSubstr_eq_none (hs : ∀ c ∈ s, c ≠ 0) (ht : ∀ c ∈ t, c ≠ 0) :
    firstIndexOfSubstr (s ++ [0]) (t ++ [0]) = .ok (-1) ↔
      (0 < intLength t → intLength t ≤ intLength s →
        ∀ i < intLength s, ¬ t.take (min (intLength t) (2 ^ 31 - i)) <+: s.drop i) := by
  rw [firstIndexOfSubstr_eq hs ht]
  by_cases hlen : 0 < intLength t ∧ intLength t ≤ intLength s
  · rw [if_pos hlen, map_placeOf_eq_neg_one, firstHit_eq_none, Nat.zero_add]
    constructor
    · intro hfalse _ _ i hi
      exact (matchesAt_eq_false ht hlen.1 hi).mp (hfalse i (Nat.zero_le i) hi)
    · intro hnot i _ hi
      exact (matchesAt_eq_false ht hlen.1 hi).mpr (hnot hlen.1 hlen.2 i hi)
  · rw [if_neg hlen]
    exact iff_of_true rfl fun hpos hle => absurd ⟨hpos, hle⟩ hlen

/-- **The search**: the first occurrence is found if and only if the lengths, as an `int` holds them,
suffice. -/
theorem findsFirst_iff (hs : ∀ c ∈ s, c ≠ 0) (ht : ∀ c ∈ t, c ≠ 0) :
    FindsFirst s t ↔ LengthsSuffice s t := by
  refine and_congr (forall_congr' fun p => forall_congr' fun hfirst => ?_)
    (forall_congr' fun _ => firstIndexOfSubstr_eq_none hs ht)
  rw [firstIndexOfSubstr_eq_some hs ht]
  -- where the whole of `t` occurs, the part of it that is compared does
  have hpart : t.take (intLength t) <+: t := List.take_prefix _ _
  simp only [and_iff_left (hpart.trans hfirst.1)]

/-- Shorter strings are searched as they should be. -/
theorem lengthsSuffice_of_lt (hne : t ≠ []) (hs : s.length < 2 ^ 31) (ht : t.length < 2 ^ 31) :
    LengthsSuffice s t := by
  have hpos := List.length_pos_iff.mpr hne
  rw [LengthsSuffice, intLength_of_lt hs, intLength_of_lt ht, List.take_length]
  constructor
  · rintro p ⟨hpre, hbefore⟩
    have hlen := hpre.length_le
    rw [List.length_drop] at hlen
    exact ⟨⟨hpos, by omega⟩, by omega, by omega, hbefore⟩
  · intro hnone _ _ i hi hpre
    have hlen := hpre.length_le
    rw [List.length_take, List.length_drop] at hlen
    rw [List.take_of_length_le (by omega)] at hpre
    exact hnone i hpre

theorem findsFirst_overlap : FindsFirst (ascii "ababac") (ascii "abac") :=
  (findsFirst_iff (List.forall_mem_ne'.mpr (by decide)) (List.forall_mem_ne'.mpr (by decide))).mpr
    (lengthsSuffice_of_lt (by decide) (by decide) (by decide))

/-- A text of `2 ^ 31` characters has a negative length. -/
theorem findsFirst_long : ¬ FindsFirst (List.replicate (2 ^ 31) 97) [97] := by
  intro h
  have hchars : ∀ c ∈ List.replicate (2 ^ 31) (97 : UInt8), c ≠ 0 := by
    intro c hc
    rw [List.eq_of_mem_replicate hc]
    decide
  have hchar : ∀ c ∈ [(97 : UInt8)], c ≠ 0 := List.forall_mem_ne'.mpr (by decide)
  have hfirst : FirstAt (List.replicate (2 ^ 31) 97) [97] 0 := by
    have hpre (n : Nat) (hn : 0 < n) : [97] <+: List.replicate n (97 : UInt8) := by
      cases n with
      | zero => cases hn
      | succ n => exact ⟨List.replicate n 97, List.replicate_succ.symm⟩
    exact ⟨hpre _ (by decide), fun q hq => absurd hq (Nat.not_lt_zero q)⟩
  have hneg : intLength (List.replicate (2 ^ 31) 97) = 0 := by
    rw [intLength, List.length_replicate]
    decide
  obtain ⟨⟨-, hle⟩, -⟩ := (firstIndexOfSubstr_eq_some hchars hchar).mp (h.1 0 hfirst)
  rw [hneg] at hle
  exact absurd hle (by decide)

end Sails.Base
