import Sails.Base.UrlCoding
import Sails.Library.FirstHit
import Mathlib.Data.Nat.Find

/-!
# Log levels by name (`log/logging.cc`)

- `skipFrom`: the loop over the characters before a name
- `getLevelByName`: `get_level_by_name`
- `levelOf`: the level that a text begins with the name of (`levelOf_append`)
- `skipFrom_eq_ok`: where the loop ends
- `recognises_iff`: the strings whose level is recognised behind the leading non-letters

The loop advances the index and the pointer it is applied to, so that it looks at every other character
and ends half as far as it has looked.
-/

namespace Sails.Log

open TransitionRun (Fault)
open Sails.Base (byteAt byteAt_of_le byteAt_append_zero)
open CMemory
open FirstHit

/-! ## The function -/

/-- `Logger::LogLevel`. -/
inductive LogLevel where
  | none
  | debug
  | info
  | warn
  | error
  deriving DecidableEq, Repr

/-- The names that are compared, in this order. -/
def levelNames : List (Bytes × LogLevel) :=
  [(ascii "debug", .debug), (ascii "info", .info), (ascii "warn", .warn), (ascii "error", .error)]

/-- A character from `a` to `z` or from `A` to `Z`. -/
def isLetter (c : UInt8) : Bool := 97 ≤ c ∧ c ≤ 122 ∨ 65 ≤ c ∧ c ≤ 90

/-- The loop from `i` on with `p` at `name + p`, `count` times: where `p` ends. -/
def skipFrom (name : Bytes) (p i : Nat) : Nat → Except Fault Nat
  | 0 => .ok p
  | count + 1 => do
    -- `p[i]`: both the pointer and the index advance
    let c ← byteAt name (p + i)
    if isLetter c then return p else skipFrom name (p + 1) (i + 1) count

/-- The comparisons with the names, one after the other. -/
def levelAt (p : Bytes) : List (Bytes × LogLevel) → Except Fault LogLevel
  | [] => .ok .none
  | (word, level) :: names => do
    let d ← strncasecmp word p word.length
    if d = 0 then return level else levelAt p names

/-- `get_level_by_name(name)`. -/
def getLevelByName (name : Option Bytes) : Except Fault LogLevel :=
  match name with
  | .none => .ok .none
  | some name => do
    let size ← strlen name
    if size = 0 then return .none
    else
      let p ← skipFrom name 0 0 (toInt32 size).toNat
      levelAt (name.drop p) levelNames

/-! ## What it is meant to return -/

/-- The level whose name a text begins with, in any letter case. -/
def levelIn (s : Bytes) : List (Bytes × LogLevel) → LogLevel
  | [] => .none
  | (word, level) :: names =>
    if SameName word (s.take word.length) then level else levelIn s names

/-- The level whose name a text begins with. -/
def levelOf (s : Bytes) : LogLevel := levelIn s levelNames

/-- The number of characters before the first letter. -/
def leading (s : Bytes) : Nat := (s.takeWhile fun c => !isLetter c).length

/-- **The level is recognised** behind the leading non-letters, in memory that ends behind the
terminator. -/
def Recognises (s : Bytes) : Prop :=
  getLevelByName (some (s ++ [0])) = .ok (levelOf (s.drop (leading s)))

instance (s : Bytes) : Decidable (Recognises s) := inferInstanceAs (Decidable (_ = _))

/-- A letter stands at position `i`. -/
def LetterAt (s : Bytes) (i : Nat) : Prop := ∃ c, s[i]? = some c ∧ isLetter c = true

/-- The loop ends at the first letter, where a name begins, and inside the string. -/
def SkipsEnough (s : Bytes) : Prop :=
  (leading s = 0 ∨ leading s = 1 ∧ 0 < intLength s ∨ levelOf (s.drop (leading s)) = .none) ∧
  ((∃ i < intLength s, LetterAt s (2 * i)) ∨ 2 * intLength s ≤ s.length + 2)

/-! ## The comparisons -/

variable {s : Bytes} {n p i : Nat}

/-- The comparisons find the level whose name the text begins with, and read nothing behind it. -/
theorem levelAt_eq {names : List (Bytes × LogLevel)} (h : ∀ row ∈ names, 0 ∉ row.1) :
    levelAt (s ++ [0]) names = .ok (levelIn s names) := by
  induction names with
  | nil => rfl
  | cons row names ih =>
    obtain ⟨word, level⟩ := row
    have hword := List.forall_mem_ne'.mpr (h (word, level) List.mem_cons_self)
    obtain ⟨d, hd, hiff⟩ := strncasecmp_eq (s := s) hword []
    have hrest := ih fun row hrow => h row (List.mem_cons_of_mem _ hrow)
    rw [levelAt, hd, levelIn]
    by_cases hzero : d = 0
    · rw [if_pos (hiff.mp hzero)]
      exact if_pos hzero
    · rw [if_neg fun hsame => hzero (hiff.mpr hsame), ← hrest]
      exact if_neg hzero

theorem isLetter_toLower (c : UInt8) : isLetter (toLower c) = isLetter c := by
  unfold toLower
  split_ifs with hcapital
  · obtain ⟨hlow, hhigh⟩ := hcapital
    have hlow' : 65 ≤ c.toNat := hlow
    have hhigh' : c.toNat ≤ 90 := hhigh
    have hval : (c + 32).toNat = c.toNat + 32 := by
      rw [UInt8.toNat_add]
      exact Nat.mod_eq_of_lt (show c.toNat + 32 < 256 by omega)
    have hleft : isLetter (c + 32) = true := by
      refine decide_eq_true (.inl ⟨?_, ?_⟩)
      · exact UInt8.le_iff_toNat_le.mpr (hval ▸ show 97 ≤ c.toNat + 32 by omega)
      · exact UInt8.le_iff_toNat_le.mpr (hval ▸ show c.toNat + 32 ≤ 122 by omega)
    rw [hleft]
    exact (decide_eq_true (.inr ⟨hlow, hhigh⟩)).symm
  · rfl

/-- A text that begins with a word has its characters, in any letter case. -/
theorem getElem?_of_sameName {word : Bytes} (h : SameName word (s.take word.length))
    (hi : i < word.length) : s[i]?.map toLower = some (toLower word[i]) := by
  have hmap := congrArg (fun l : Bytes => l[i]?) h
  simp only [List.getElem?_map, List.getElem?_eq_getElem hi, Option.map_some,
    List.getElem?_take_of_lt hi] at hmap
  exact hmap.symm

/-- Where a text begins with a word of letters, it begins with letters. -/
theorem letterAt_of_sameName {word : Bytes} (hword : ∀ c ∈ word, isLetter c = true)
    (h : SameName word (s.take word.length)) (hi : i < word.length) : LetterAt s i := by
  obtain ⟨c, hc, hlower⟩ := Option.map_eq_some_iff.mp (getElem?_of_sameName h hi)
  refine ⟨c, hc, ?_⟩
  rw [← isLetter_toLower, hlower, isLetter_toLower]
  exact hword _ (List.getElem_mem hi)

theorem levelIn_eq {names : List (Bytes × LogLevel)} {level : LogLevel}
    (hall : ∀ row ∈ names, SameName row.1 (s.take row.1.length) → row.2 = level)
    (hex : ∃ row ∈ names, SameName row.1 (s.take row.1.length)) : levelIn s names = level := by
  induction names with
  | nil =>
    obtain ⟨row, hrow, -⟩ := hex
    cases hrow
  | cons row names ih =>
    by_cases hsame : SameName row.1 (s.take row.1.length)
    · exact (if_pos hsame).trans (hall row List.mem_cons_self hsame)
    · refine (if_neg hsame).trans (ih (fun row hrow => hall row (List.mem_cons_of_mem _ hrow)) ?_)
      obtain ⟨found, hfound, hname⟩ := hex
      rcases List.mem_cons.mp hfound with rfl | hfound
      · exact absurd hname hsame
      · exact ⟨found, hfound, hname⟩

/-- A text that begins with a name, in any letter case, has its level. -/
theorem levelOf_append {row : Bytes × LogLevel} (hrow : row ∈ levelNames) {word : Bytes}
    (h : SameName row.1 word) (rest : Bytes) : levelOf (word ++ rest) = row.2 := by
  have hlen : row.1.length = word.length := by
    simpa only [List.length_map] using congrArg List.length h
  have hname : SameName row.1 ((word ++ rest).take row.1.length) := by
    rwa [hlen, List.take_left]
  refine levelIn_eq (fun other hother hsame => ?_) ⟨row, hrow, hname⟩
  -- no two names have the same first letter
  have hfirst : ∀ a ∈ levelNames, ∀ b ∈ levelNames,
      a.1[0]?.map toLower = b.1[0]?.map toLower → a.2 = b.2 := by decide
  have hpos : ∀ a ∈ levelNames, 0 < a.1.length := by decide
  refine hfirst other hother row hrow ?_
  rw [List.getElem?_eq_getElem (hpos other hother), List.getElem?_eq_getElem (hpos row hrow),
    Option.map_some, Option.map_some, ← getElem?_of_sameName hsame (hpos other hother),
    ← getElem?_of_sameName hname (hpos row hrow)]

/-- Where a level is found, there are two letters. -/
theorem letterAt_of_levelIn {names : List (Bytes × LogLevel)}
    (hnames : ∀ row ∈ names, 2 ≤ row.1.length ∧ row.1.all isLetter = true)
    (h : levelIn s names ≠ .none) : LetterAt s 0 ∧ LetterAt s 1 := by
  induction names with
  | nil => exact absurd rfl h
  | cons row names ih =>
    obtain ⟨word, level⟩ := row
    obtain ⟨hlen, hall⟩ := hnames (word, level) List.mem_cons_self
    have hword := List.all_eq_true.mp hall
    rw [levelIn] at h
    split_ifs at h with hsame
    · exact ⟨letterAt_of_sameName hword hsame (by omega),
        letterAt_of_sameName hword hsame (by omega)⟩
    · exact ih (fun row hrow => hnames row (List.mem_cons_of_mem _ hrow)) h

theorem letterAt_of_levelOf (h : levelOf (s.drop p) ≠ .none) :
    LetterAt s p ∧ LetterAt s (p + 1) := by
  have hletters := letterAt_of_levelIn (by decide) h
  simpa only [LetterAt, List.getElem?_drop, Nat.add_zero] using hletters

/-! ## The loop -/

/-- The character looked at when the index is `i`. -/
def looksAt (name : Bytes) (i : Nat) : Except Fault Bool := (byteAt name (2 * i)).map isLetter

theorem skipFrom_eq (name : Bytes) (i count : Nat) :
    skipFrom name i i count =
      (firstHit (looksAt name) i count).map fun hit => hit.getD (i + count) := by
  induction count generalizing i with
  | zero => rfl
  | succ count ih =>
    rw [skipFrom, ← Nat.two_mul]
    cases hc : byteAt name (2 * i) with
    | error e =>
      have hlook : looksAt name i = .error e := by rw [looksAt, hc]; rfl
      rw [firstHit_of_error hlook]
      rfl
    | ok c =>
      have hlook : looksAt name i = .ok (isLetter c) := by rw [looksAt, hc]; rfl
      cases hletter : isLetter c with
      | true =>
        rw [firstHit_of_true (hlook.trans (congrArg _ hletter))]
        exact if_pos hletter
      | false =>
        rw [firstHit_of_false (hlook.trans (congrArg _ hletter)), Nat.add_comm count 1,
          ← Nat.add_assoc, ← ih]
        exact if_neg (by simp [hletter])

theorem LetterAt.lt_length (h : LetterAt s i) : i < s.length := by
  obtain ⟨c, hc, -⟩ := h
  exact (List.getElem?_eq_some_iff.mp hc).1

/-- The terminator is no letter. -/
theorem letterAt_iff : LetterAt s i ↔ isLetter (s.getD i 0) = true := by
  rw [LetterAt, List.getD_eq_getElem?_getD]
  cases s[i]? with
  | none => exact iff_of_false (fun ⟨c, hc, _⟩ => by cases hc) (by decide)
  | some c => simp only [Option.some.injEq, exists_eq_left', Option.getD_some]

theorem looksAt_of_le (h : 2 * i ≤ s.length) :
    looksAt (s ++ [0]) i = .ok (isLetter (s.getD (2 * i) 0)) := by
  rw [looksAt, byteAt_append_zero h]
  rfl

/-- Nothing is behind the terminator. -/
theorem looksAt_of_lt (h : s.length < 2 * i) : looksAt (s ++ [0]) i = .error .outOfBounds := by
  rw [looksAt, byteAt_of_le (by rw [List.length_append]; exact h)]
  rfl

theorem looksAt_eq_true : looksAt (s ++ [0]) i = .ok true ↔ LetterAt s (2 * i) := by
  rcases Nat.lt_or_ge s.length (2 * i) with hlt | hle
  · rw [looksAt_of_lt hlt]
    refine iff_of_false (fun h => ?_) (fun h => absurd h.lt_length (Nat.not_lt.mpr hlt.le))
    cases h
  · rw [looksAt_of_le hle, letterAt_iff, Except.ok.injEq]

theorem looksAt_eq_false :
    looksAt (s ++ [0]) i = .ok false ↔ ¬ LetterAt s (2 * i) ∧ 2 * i ≤ s.length := by
  rcases Nat.lt_or_ge s.length (2 * i) with hlt | hle
  · rw [looksAt_of_lt hlt]
    exact iff_of_false (fun h => by cases h) (fun h => absurd h.2 (Nat.not_le.mpr hlt))
  · rw [looksAt_of_le hle, letterAt_iff, and_iff_left hle, Except.ok.injEq, Bool.not_eq_true]

/-- **The loop** ends at the first index for which there is a letter in twice the distance, or when it
has looked at as many characters as there are. -/
theorem skipFrom_eq_ok : skipFrom (s ++ [0]) 0 0 n = .ok p ↔
    (p < n ∧ LetterAt s (2 * p) ∨ p = n ∧ 2 * n ≤ s.length + 2) ∧
      ∀ q < p, ¬ LetterAt s (2 * q) := by
  rw [skipFrom_eq, Nat.zero_add]
  constructor
  · intro h
    cases hhit : firstHit (looksAt (s ++ [0])) 0 n with
    | error e =>
      rw [hhit] at h
      cases h
    | ok hit =>
      rw [hhit] at h
      cases Except.ok.inj h
      cases hit with
      | none =>
        have hnone := firstHit_eq_none.mp hhit
        have hbefore (q : Nat) (hq : q < n) := looksAt_eq_false.mp (hnone q (Nat.zero_le q) (by omega))
        refine ⟨.inr ⟨rfl, ?_⟩, fun q hq => (hbefore q hq).1⟩
        -- the last character looked at
        rcases Nat.eq_zero_or_pos n with rfl | hpos
        · omega
        · have hlast := (hbefore (n - 1) (by omega)).2
          omega
      | some p =>
        obtain ⟨-, hp, htrue, hbefore⟩ := firstHit_eq_some.mp hhit
        exact ⟨.inl ⟨by simpa using hp, looksAt_eq_true.mp htrue⟩,
          fun q hq => (looksAt_eq_false.mp (hbefore q (Nat.zero_le q) hq)).1⟩
  · rintro ⟨⟨hp, hletter⟩ | ⟨rfl, hlen⟩, hbefore⟩
    -- what is looked at before a letter is inside the string
    · have hlt := hletter.lt_length
      have hhit : firstHit (looksAt (s ++ [0])) 0 n = .ok (some p) :=
        firstHit_eq_some.mpr ⟨Nat.zero_le p, by omega, looksAt_eq_true.mpr hletter,
          fun q _ hq => looksAt_eq_false.mpr ⟨hbefore q hq, by omega⟩⟩
      rw [hhit]
      rfl
    · have hhit : firstHit (looksAt (s ++ [0])) 0 p = .ok none :=
        firstHit_eq_none.mpr fun q _ hq => looksAt_eq_false.mpr ⟨hbefore q (by omega), by omega⟩
      rw [hhit]
      rfl

theorem exists_skipFrom : (∃ p, skipFrom (s ++ [0]) 0 0 n = .ok p) ↔
    (∃ i < n, LetterAt s (2 * i)) ∨ 2 * n ≤ s.length + 2 := by
  classical
  constructor
  · rintro ⟨p, hp⟩
    rcases (skipFrom_eq_ok.mp hp).1 with ⟨hlt, hletter⟩ | ⟨-, hlen⟩
    · exact .inl ⟨p, hlt, hletter⟩
    · exact .inr hlen
  · intro h
    by_cases hex : ∃ i, i < n ∧ LetterAt s (2 * i)
    · refine ⟨Nat.find hex, skipFrom_eq_ok.mpr ⟨.inl (Nat.find_spec hex), fun q hq hletter => ?_⟩⟩
      exact Nat.find_min hex hq ⟨hq.trans (Nat.find_spec hex).1, hletter⟩
    · refine ⟨n, skipFrom_eq_ok.mpr ⟨.inr ⟨rfl, h.resolve_left hex⟩, fun q hq hletter => ?_⟩⟩
      exact hex ⟨q, hq, hletter⟩

/-! ## The place of a name -/

theorem leading_of_letterAt (h : LetterAt s 0) : leading s = 0 := by
  obtain ⟨c, hc, hletter⟩ := h
  cases s with
  | nil => cases hc
  | cons d s =>
    cases hc
    rw [leading, List.takeWhile_cons_of_neg (by simp [hletter]), List.length_nil]

theorem leading_of_letterAt_one (h0 : ¬ LetterAt s 0) (h1 : LetterAt s 1) : leading s = 1 := by
  cases s with
  | nil => exact absurd h1.lt_length (Nat.not_lt_zero 1)
  | cons d s =>
    have hd : isLetter d = false := by
      rw [← Bool.not_eq_true]
      exact fun hd => h0 ⟨d, rfl, hd⟩
    have hs : leading s = 0 := leading_of_letterAt h1
    rw [leading, List.takeWhile_cons_of_pos (by simp [hd]), List.length_cons]
    exact congrArg (· + 1) hs

/-- Of two letters side by side, one is in twice the distance of an index before them. -/
theorem exists_letterAt_even (h0 : LetterAt s p) (h1 : LetterAt s (p + 1)) (hp : 2 ≤ p) :
    ∃ i < p, LetterAt s (2 * i) := by
  rcases Nat.mod_two_eq_zero_or_one p with heven | hodd
  · exact ⟨p / 2, by omega, (by omega : p = 2 * (p / 2)) ▸ h0⟩
  · exact ⟨p / 2 + 1, by omega, (by omega : p + 1 = 2 * (p / 2 + 1)) ▸ h1⟩

/-- A name is only found where the loop has skipped all leading non-letters. -/
theorem leading_of_skipFrom (hskip : skipFrom (s ++ [0]) 0 0 n = .ok p)
    (hname : levelOf (s.drop p) ≠ .none) : leading s = p ∧ p ≤ 1 := by
  obtain ⟨h0, h1⟩ := letterAt_of_levelOf hname
  obtain ⟨-, hbefore⟩ := skipFrom_eq_ok.mp hskip
  have hp : p ≤ 1 := by
    by_contra hlt
    obtain ⟨i, hi, heven⟩ := exists_letterAt_even h0 h1 (by omega)
    exact hbefore i hi heven
  refine ⟨?_, hp⟩
  rcases Nat.le_one_iff_eq_zero_or_eq_one.mp hp with rfl | rfl
  · exact leading_of_letterAt h0
  · exact leading_of_letterAt_one (hbefore 0 Nat.one_pos) h0

/-- Where at most one character is to be skipped, the loop ends at the name behind it. -/
theorem skipFrom_of_leading (hskip : skipFrom (s ++ [0]) 0 0 n = .ok p)
    (hlead : leading s = 0 ∨ leading s = 1 ∧ 0 < n)
    (hname : levelOf (s.drop (leading s)) ≠ .none) : p = leading s := by
  obtain ⟨hend, hbefore⟩ := skipFrom_eq_ok.mp hskip
  obtain ⟨h0, h1⟩ := letterAt_of_levelOf hname
  rcases hlead with hzero | ⟨hone, hn⟩
  -- the first character is a letter, and the loop ends there
  · rw [hzero] at h0
    by_contra hp
    exact hbefore 0 (by omega) h0
  -- the second one is; what the loop looks at next is the third, a letter of the name as well
  · rw [hone] at h1
    have hle : p ≤ 1 := by
      by_contra hp
      exact hbefore 1 (by omega) h1
    have hne : p ≠ 0 := by
      rintro rfl
      rcases hend with ⟨-, hletter⟩ | ⟨rfl, -⟩
      · have hlead0 := leading_of_letterAt hletter
        omega
      · exact absurd hn (Nat.lt_irrefl 0)
    omega

/-! ## The level of a string -/

/-- A string has the level of the name where the loop ends. -/
theorem getLevelByName_eq_ok (hs : ∀ c ∈ s, c ≠ 0) {level : LogLevel} :
    getLevelByName (some (s ++ [0])) = .ok level ↔
      ∃ p, skipFrom (s ++ [0]) 0 0 (intLength s) = .ok p ∧ levelOf (s.drop p) = level := by
  cases s with
  | nil =>
    have hskip : skipFrom ([] ++ [0]) 0 0 (intLength []) = .ok 0 := rfl
    rw [hskip]
    constructor
    · intro h
      exact ⟨0, rfl, Except.ok.inj h⟩
    · rintro ⟨p, -, hlevel⟩
      rw [List.drop_nil] at hlevel
      exact congrArg Except.ok hlevel
  | cons c s =>
    have hlen : strlen (c :: s ++ [0]) = .ok (c :: s).length := strlen_append_zero hs []
    have hne : ¬ (c :: s).length = 0 := Nat.succ_ne_zero _
    simp only [getLevelByName, hlen, bind, Except.bind, pure, Except.pure, if_neg hne]
    rw [← intLength]
    cases hskip : skipFrom (c :: s ++ [0]) 0 0 (intLength (c :: s)) with
    | error e => simp
    | ok p =>
      -- the loop does not go beyond the terminator
      have hp : p ≤ (c :: s).length := by
        have hle := intLength_le (c :: s)
        have hend := (skipFrom_eq_ok.mp hskip).1
        omega
      have hlevel : levelAt (List.drop p (c :: s ++ [0])) levelNames =
          .ok (levelOf ((c :: s).drop p)) := by
        rw [List.drop_append_of_le_length hp]
        exact levelAt_eq (by decide)
      simp only [hlevel, Except.ok.injEq, exists_eq_left']

/-- **Log levels**: the level behind the leading non-letters is recognised, without a look behind the
string, if and only if the loop skips enough. -/
theorem recognises_iff (hs : ∀ c ∈ s, c ≠ 0) : Recognises s ↔ SkipsEnough s := by
  rw [Recognises, getLevelByName_eq_ok hs, SkipsEnough, ← exists_skipFrom]
  constructor
  · rintro ⟨p, hskip, hlevel⟩
    refine ⟨?_, p, hskip⟩
    by_cases hname : levelOf (s.drop (leading s)) = .none
    · exact .inr (.inr hname)
    · obtain ⟨hlead, hp⟩ := leading_of_skipFrom hskip (hlevel ▸ hname)
      rcases Nat.le_one_iff_eq_zero_or_eq_one.mp hp with rfl | rfl
      · exact .inl hlead
      -- the loop was gone through at least once
      · have hpos := (skipFrom_eq_ok.mp hskip).1
        exact .inr (.inl ⟨hlead, by omega⟩)
  · rintro ⟨hplace, p, hskip⟩
    refine ⟨p, hskip, ?_⟩
    by_cases hname : levelOf (s.drop (leading s)) = .none
    · by_contra hne
      obtain ⟨rfl, -⟩ := leading_of_skipFrom hskip fun h => hne (h.trans hname.symm)
      exact hne rfl
    · have hlead : leading s = 0 ∨ leading s = 1 ∧ 0 < intLength s := by
        rcases hplace with h | h | h
        · exact .inl h
        · exact .inr h
        · exact absurd h hname
      rw [skipFrom_of_leading hskip hlead hname]

theorem recognises_bracket : Recognises (ascii "[INFO] ready") := by
  refine (recognises_iff (List.forall_mem_ne'.mpr (by decide))).mpr
    ⟨.inr (.inl (by decide)), .inl ⟨1, by decide, ?_⟩⟩
  exact ⟨78, by decide, by decide⟩

/-- Behind two spaces the loop ends one character too early. -/
theorem recognises_spaces : ¬ Recognises (ascii "  debug") := by
  decide

end Sails.Log
