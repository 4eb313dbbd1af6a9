import Mathlib.Order.Iterate

/-!
# The first iterate that suffices

A loop that grows a size `newcnt = f newcnt` until it is at least what is needed, and that grows it
once in any case, ends with the first iterate of `f` that suffices.

- `Reaches`: what such a loop ends with
- `Reaches.step`, `Reaches.last`: an iteration more, and the last one
- `Reaches.exists_of_lt`: with sizes that grow it ends
- `Reaches.le_iterate_iff`: sizes that all come from one size stay below one of its iterates exactly
  when what is needed does
-/

/-- `r` is the first iterate of `f` from `cur` on, `cur` itself excepted, that is at least
`need`. -/
def Reaches (f : Nat → Nat) (need cur r : Nat) : Prop :=
  ∃ k, r = f^[k + 1] cur ∧ need ≤ r ∧ ∀ j < k, f^[j + 1] cur < need

namespace Reaches

variable {f : Nat → Nat} {need cur r start k m : Nat}

/-- The last iteration. -/
theorem last (h : need ≤ f cur) : Reaches f need cur (f cur) :=
  ⟨0, rfl, h, fun j hj => absurd hj (Nat.not_lt_zero j)⟩

/-- An iteration more in front. -/
theorem step (hlt : f cur < need) (h : Reaches f need (f cur) r) : Reaches f need cur r := by
  obtain ⟨k, hr, hneed, hbefore⟩ := h
  refine ⟨k + 1, by rw [hr, ← Function.iterate_succ_apply], hneed, fun j hj => ?_⟩
  -- the first iterate is `f cur`; the others are those of the shorter loop
  cases j with
  | zero => exact hlt
  | succ j =>
    rw [Function.iterate_succ_apply]
    exact hbefore j (Nat.lt_of_succ_lt_succ hj)

/-- Sizes that grow suffice in the end. -/
theorem exists_of_lt (hlt : ∀ n, n < f n) (need cur : Nat) :
    ∃ r, Reaches f need cur r ∧ f cur ≤ r := by
  by_cases hneed : need ≤ f cur
  · exact ⟨f cur, .last hneed, Nat.le_refl _⟩
  · have hcur := hlt cur
    obtain ⟨r, hreaches, hle⟩ := exists_of_lt hlt need (f cur)
    exact ⟨r, .step (Nat.lt_of_not_le hneed) hreaches, Nat.le_trans (hlt (f cur)).le hle⟩
termination_by need - cur

/-- No iterate that suffices is smaller. -/
theorem le_iterate (hf : StrictMono f) (hstart : cur < f cur) (h : Reaches f need cur r)
    (hneed : need ≤ f^[k + 1] cur) : r ≤ f^[k + 1] cur := by
  obtain ⟨j, rfl, -, hbefore⟩ := h
  -- all iterates before the result are too small
  have hjk : j ≤ k := by
    by_contra hlt
    exact absurd hneed (Nat.not_le.mpr (hbefore k (Nat.lt_of_not_le hlt)))
  exact (hf.strictMono_iterate_of_lt_map hstart).monotone (Nat.succ_le_succ hjk)

/-- A size that came from `start` goes on coming from it. -/
theorem of_start (h : Reaches f need (f^[k] start) r) : ∃ n, r = f^[n] start := by
  obtain ⟨j, rfl, -⟩ := h
  exact ⟨j + 1 + k, (Function.iterate_add_apply f (j + 1) k start).symm⟩

/-- **The bound**: a size that comes from `start` grows beyond an iterate of `start` only when
something beyond it is needed. -/
theorem le_iterate_iff (hf : StrictMono f) (hstart : start < f start)
    (hcur : f^[k] start < need) (h : Reaches f need (f^[k] start) r) :
    r ≤ f^[m] start ↔ need ≤ f^[m] start := by
  have hmono := hf.strictMono_iterate_of_lt_map hstart
  constructor
  · intro hle
    obtain ⟨j, -, hneed, -⟩ := h
    exact Nat.le_trans hneed hle
  · intro hneed
    have hkm : k < m := hmono.lt_iff_lt.mp (Nat.lt_of_lt_of_le hcur hneed)
    obtain ⟨j, rfl⟩ := Nat.exists_eq_add_of_lt hkm
    -- the iterate of `start` is one of the size the loop begins with
    have hsplit : f^[k + j + 1] start = f^[j + 1] (f^[k] start) := by
      rw [← Function.iterate_add_apply]
      congr 1
      omega
    rw [hsplit] at hneed ⊢
    refine h.le_iterate hf ?_ hneed
    rw [← Function.iterate_succ_apply' f]
    exact hmono (Nat.lt_succ_self k)

/-- Between two iterates of `start` there are no others. -/
theorem iterate_le_iff (hf : StrictMono f) (hstart : start < f start) {bound : Nat}
    (hlow : f^[m] start ≤ bound) (hhigh : bound < f^[m + 1] start) :
    f^[k] start ≤ bound ↔ f^[k] start ≤ f^[m] start := by
  have hmono := hf.strictMono_iterate_of_lt_map hstart
  refine ⟨fun hle => hmono.monotone ?_, fun hle => Nat.le_trans hle hlow⟩
  exact Nat.le_of_lt_succ (hmono.lt_iff_lt.mp (Nat.lt_of_le_of_lt hle hhigh))

end Reaches
