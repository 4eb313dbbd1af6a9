import Mathlib.Logic.Function.Basic

/-!
# One lock and the threads that may have it

`Owns` says that the lock is with the one thread that is inside, if there is one.

- `Owns.alone`: no two threads are inside
- `Owns.move`: what a thread that goes in, goes out or stays where it is does to the lock
-/

namespace Mutex

variable {θ : Type*} {lock : Option θ} {inside : θ → Bool} {x y : θ}

/-- The owner of the lock is inside, and nobody else is. -/
def Owns (lock : Option θ) (inside : θ → Bool) : Prop := ∀ x, lock = some x ↔ inside x

theorem Owns.alone (h : Owns lock inside) (hx : inside x) (hne : y ≠ x) : inside y = false := by
  rw [← Bool.not_eq_true]
  intro hy
  have hsame := ((h y).mpr hy).symm.trans ((h x).mpr hx)
  exact hne (Option.some.inj hsame)

theorem Owns.outside (h : Owns lock inside) (hfree : lock = none) (x : θ) : inside x = false := by
  rw [← Bool.not_eq_true, ← h x, hfree]
  exact Option.some_ne_none x ∘ Eq.symm

/-- Thread `x` moves. It has the lock afterwards if it is inside then, and releases it if it was
inside before; it goes in only when the lock is free. -/
theorem Owns.move [DecidableEq θ] (h : Owns lock inside) (x : θ) (now : Bool)
    (hfree : now = true → inside x = false → lock = none) :
    Owns (if now then some x else if inside x then none else lock)
      (Function.update inside x now) := by
  intro y
  by_cases hyx : y = x
  · subst hyx
    rw [Function.update_self]
    cases now with
    | true => simp
    | false =>
      -- it is outside now, so the lock is not with it
      cases hin : inside y with
      | true => simp
      | false => simpa [hin] using (h y).not
  · rw [Function.update_of_ne hyx]
    cases now with
    | true =>
      have hy : inside y = false := by
        cases hin : inside x with
        | true => exact h.alone hin hyx
        | false => exact h.outside (hfree rfl hin) y
      simp [hy, Ne.symm hyx]
    | false =>
      cases hin : inside x with
      | true => simp [h.alone hin hyx]
      | false => simpa using h y

end Mutex
