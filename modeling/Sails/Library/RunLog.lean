import Sails.Library.Run

/-!
# Runs that keep a log

`logged step emit` performs `step` and writes down what `emit` says of each step that succeeded.
The log is not read by the step, so it neither allows nor hinders anything.

- `logged_ok`, `logged_eq_ok`: a logged step, and the step it logs
- `run_of_logged`: a logged run is a run
-/

namespace TransitionRun

variable {σ α β ε : Type*}

/-- `step`, with what `emit` says of it appended to a log. -/
def logged (step : σ → α → Except ε σ) (emit : σ → α → List β) (p : σ × List β) (a : α) :
    Except ε (σ × List β) :=
  match step p.1 a with
  | .error e => .error e
  | .ok t => .ok (t, p.2 ++ emit p.1 a)

variable {step : σ → α → Except ε σ} {emit : σ → α → List β} {s t : σ}
  {log log' : List β} {a : α} {as : List α}

theorem logged_ok (h : step s a = .ok t) :
    logged step emit (s, log) a = .ok (t, log ++ emit s a) := by
  simp only [logged, h]

theorem logged_eq_ok {q : σ × List β} (h : logged step emit (s, log) a = .ok q) :
    step s a = .ok q.1 ∧ q.2 = log ++ emit s a := by
  cases hstep : step s a with
  | error e => simp [logged, hstep] at h
  | ok t =>
    rw [logged_ok hstep] at h
    cases h
    exact ⟨rfl, rfl⟩

/-- A logged run is a run. -/
theorem run_of_logged (h : run (logged step emit) (s, log) as = .ok (t, log')) :
    run step s as = .ok t := by
  induction as generalizing s log with
  | nil =>
    cases h
    rfl
  | cons a as ih =>
    obtain ⟨⟨u, log₁⟩, hstep, hrest⟩ := run_cons_eq_ok h
    rw [run_cons_ok (logged_eq_ok hstep).1]
    exact ih hrest

end TransitionRun
