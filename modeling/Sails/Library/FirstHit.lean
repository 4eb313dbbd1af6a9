import Mathlib.Data.List.Basic

/-!
# The first index that passes a test

A loop that looks at one index after the other and is left at the first one that passes a test; the
test may fail to return.

- `firstHit`: such a loop over `count` indices from `start` on
- `firstHit_eq_some`, `firstHit_eq_none`: what the results say of the tests
-/

namespace FirstHit

variable {ε : Type*} {test : Nat → Except ε Bool} {start count p : Nat}

/-- The first of the `count` indices from `start` on that passes the test. -/
def firstHit (test : Nat → Except ε Bool) (start : Nat) : Nat → Except ε (Option Nat)
  | 0 => .ok none
  | count + 1 =>
    match test start with
    | .error e => .error e
    | .ok true => .ok (some start)
    | .ok false => firstHit test (start + 1) count

theorem firstHit_of_true (h : test start = .ok true) :
    firstHit test start (count + 1) = .ok (some start) := by
  rw [firstHit, h]

theorem firstHit_of_false (h : test start = .ok false) :
    firstHit test start (count + 1) = firstHit test (start + 1) count := by
  rw [firstHit, h]

theorem firstHit_of_error {e : ε} (h : test start = .error e) :
    firstHit test start (count + 1) = .error e := by
  rw [firstHit, h]

/-- What holds of all indices from `start` on holds of `start` and of those behind it. -/
theorem forall_from {P : Nat → Prop} {stop : Nat} (h : start < stop) :
    (∀ q, start ≤ q → q < stop → P q) ↔
      P start ∧ ∀ q, start + 1 ≤ q → q < stop → P q := by
  constructor
  · intro hall
    exact ⟨hall start (Nat.le_refl _) h, fun q hq hlt => hall q (Nat.le_of_succ_le hq) hlt⟩
  · rintro ⟨hstart, hbehind⟩ q hq hlt
    rcases Nat.eq_or_lt_of_le hq with rfl | hq
    · exact hstart
    · exact hbehind q hq hlt

/-- **A hit**: it passes the test, and all indices before it do not. -/
theorem firstHit_eq_some : firstHit test start count = .ok (some p) ↔
    start ≤ p ∧ p < start + count ∧ test p = .ok true ∧
      ∀ q, start ≤ q → q < p → test q = .ok false := by
  induction count generalizing start with
  | zero =>
    refine iff_of_false (fun h => ?_) (fun h => absurd h.2.1 (Nat.not_lt.mpr h.1))
    cases h
  | succ count ih =>
    rcases Nat.lt_trichotomy p start with hp | rfl | hp
    -- a hit is not before the first index
    · refine iff_of_false (fun h => ?_) (fun h => absurd h.1 (Nat.not_le.mpr hp))
      rcases htest : test start with e | _ | _
      · rw [firstHit_of_error htest] at h
        cases h
      · rw [firstHit_of_false htest] at h
        exact absurd (ih.mp h).1 (by omega)
      · rw [firstHit_of_true htest] at h
        cases h
        exact absurd hp (Nat.lt_irrefl _)
    -- the first index: nothing is before it
    · have hbefore : ∀ q, p ≤ q → q < p → test q = .ok false :=
        fun q hq hlt => absurd hlt (Nat.not_lt.mpr hq)
      rcases htest : test p with e | _ | _
      · rw [firstHit_of_error htest]
        simp
      · rw [firstHit_of_false htest, ih]
        refine iff_of_false (fun h => absurd h.1 (by omega)) (fun h => ?_)
        cases h.2.2.1
      · rw [firstHit_of_true htest]
        exact iff_of_true rfl ⟨Nat.le_refl p, by omega, rfl, hbefore⟩
    -- an index behind the first one, which then does not pass
    · rw [forall_from hp]
      rcases htest : test start with e | _ | _
      · rw [firstHit_of_error htest]
        simp
      · rw [firstHit_of_false htest, ih]
        grind
      · rw [firstHit_of_true htest]
        simp [Nat.ne_of_lt hp]

/-- **No hit**: no index passes the test. -/
theorem firstHit_eq_none : firstHit test start count = .ok none ↔
    ∀ q, start ≤ q → q < start + count → test q = .ok false := by
  induction count generalizing start with
  | zero =>
    exact iff_of_true rfl fun q hq hlt => absurd hlt (Nat.not_lt.mpr hq)
  | succ count ih =>
    rw [forall_from (Nat.lt_add_of_pos_right (Nat.succ_pos count))]
    rcases htest : test start with e | _ | _
    · rw [firstHit_of_error htest]
      simp
    · rw [firstHit_of_false htest, ih]
      simp only [true_and, Nat.succ_add, Nat.add_succ]
    · rw [firstHit_of_true htest]
      simp

end FirstHit
