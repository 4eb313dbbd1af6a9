import Mathlib.Data.List.Basic
import Mathlib.Order.Defs.PartialOrder

/-!
# Runs of a step function with faults

A program is modelled as a deterministic step function `σ → α → Except ε σ`: the action
carries every choice made outside the program (which thread moves, what the kernel answers),
and an error is a step that has no defined successor (a failed assertion, an access outside
an object). An action that is not enabled leaves the state alone.

- `ok_of_bind`: a computation that returns, taken apart
- `run`: perform a list of actions, the first error ends the run
- `run_flatMap`: a run whose actions come in groups, one for each item of a list
- `foldlM_represents`: calls on a representation that follow those on what it represents
- `Along`: a condition met by every action of a run in the state it is performed in
- `run_invariant` / `run_ok`: what one step preserves, a whole run preserves
- `run_iff_along`: a property of the past, and the condition its steps have to meet
- `always_iff_along`: a property of all states, and the condition the steps have to meet
- `run_avoids_iff_along`: errors that are somebody's fault, and the condition that avoids them

Every state reached is the end of some run, so a statement about the end of an arbitrary
run is a statement about every reachable state.
-/

namespace TransitionRun

/-- Why a step of a C++ program has no defined successor. -/
inductive Fault where
  /-- an `assert` whose condition is false -/
  | assertion
  /-- a read or write outside the object it is made through -/
  | outOfBounds
  /-- a member access through a null pointer -/
  | nullPointer
  /-- an access through a pointer to an object already released -/
  | dangling
  /-- an integer division or remainder by zero -/
  | divisionByZero
  /-- a signed result that does not fit its type -/
  | overflow
  deriving DecidableEq, Repr

/-- A computation in two parts that returns, taken apart. -/
theorem ok_of_bind {ε α β : Type} {x : Except ε α} {f : α → Except ε β} {y : β}
    (h : (x >>= f) = .ok y) : ∃ a, x = .ok a ∧ f a = .ok y := by
  cases x with
  | error e => cases h
  | ok a => exact ⟨a, rfl, h⟩

variable {σ α ε : Type*}

/-! ## Runs -/

/-- Perform the actions in order from `s`; the first error ends the run. -/
def run (step : σ → α → Except ε σ) (s : σ) : List α → Except ε σ
  | [] => .ok s
  | a :: as =>
    match step s a with
    | .error e => .error e
    | .ok t => run step t as

/-- Every action of the run meets `P` in the state it is performed in. -/
def Along (step : σ → α → Except ε σ) (P : σ → α → Prop) (s : σ) : List α → Prop
  | [] => True
  | a :: as => P s a ∧ ∀ t, step s a = .ok t → Along step P t as

variable {step : σ → α → Except ε σ} {P Q : σ → α → Prop} {s t u : σ}

@[simp] theorem run_nil : run step s [] = .ok s := rfl

theorem run_cons_ok {a : α} {as : List α} (h : step s a = .ok t) :
    run step s (a :: as) = run step t as := by
  simp only [run, h]

/-- A run of `a :: as` that does not fail begins with a step that does not fail. -/
theorem run_cons_eq_ok {a : α} {as : List α} (h : run step s (a :: as) = .ok u) :
    ∃ t, step s a = .ok t ∧ run step t as = .ok u := by
  simp only [run] at h
  split at h
  · cases h
  · rename_i t ht
    exact ⟨t, ht, h⟩

theorem run_append {as bs : List α} (h : run step s as = .ok t) :
    run step s (as ++ bs) = run step t bs := by
  induction as generalizing s with
  | nil => cases h; rfl
  | cons a as ih =>
    obtain ⟨s', hstep, hrest⟩ := run_cons_eq_ok h
    rw [List.cons_append, run_cons_ok hstep]
    exact ih hrest

/-- **Item rule**: the actions come in groups, one for each item of a list. What each group makes
of the items before it, the run makes of all of them. -/
theorem run_flatMap {γ : Type*} {actions : γ → List α} {R : List γ → σ → Prop} {items : List γ}
    (hstep : ∀ done x rest s, items = done ++ x :: rest → R done s →
      ∃ t, run step s (actions x) = .ok t ∧ R (done ++ [x]) t) (hs : R [] s) :
    ∃ t, run step s (items.flatMap actions) = .ok t ∧ R items t := by
  -- the items done so far are generalised, those to come are the list of the induction
  have hfrom : ∀ rest done s, items = done ++ rest → R done s →
      ∃ t, run step s (rest.flatMap actions) = .ok t ∧ R items t := by
    intro rest
    induction rest with
    | nil =>
      intro done s hitems hR
      rw [List.append_nil] at hitems
      exact ⟨s, rfl, hitems ▸ hR⟩
    | cons x rest ih =>
      intro done s hitems hR
      obtain ⟨t, hrun, hR'⟩ := hstep done x rest s hitems hR
      obtain ⟨u, hrest, hu⟩ := ih (done ++ [x]) t (by simpa using hitems) hR'
      exact ⟨u, by rw [List.flatMap_cons, run_append hrun, hrest], hu⟩
  exact hfrom items [] s rfl hs

/-- The item rule for one action an item. -/
theorem run_map {γ : Type*} {action : γ → α} {R : List γ → σ → Prop} {items : List γ}
    (hstep : ∀ done x rest s, items = done ++ x :: rest → R done s →
      ∃ t, step s (action x) = .ok t ∧ R (done ++ [x]) t) (hs : R [] s) :
    ∃ t, run step s (items.map action) = .ok t ∧ R items t := by
  rw [List.map_eq_flatMap]
  refine run_flatMap (fun done x rest s hitems hR => ?_) hs
  obtain ⟨t, hok, ht⟩ := hstep done x rest s hitems hR
  exact ⟨t, run_cons_ok hok, ht⟩

/-! ## Folds -/

section Folds

variable {κ ρ γ : Type*} [Preorder κ] {apply : σ → γ → σ} {size : σ → κ}

/-- What no step makes smaller, no run makes smaller. -/
theorem le_foldl (hle : ∀ s c, size s ≤ size (apply s c)) (cs : List γ) (s : σ) :
    size s ≤ size (cs.foldl apply s) := by
  induction cs generalizing s with
  | nil => exact le_refl _
  | cons c cs ih => exact le_trans (hle s c) (ih (apply s c))

/-- **Fold rule**: calls performed on a representation do what they do to what is represented, as long
as the size it ends with is not too large. -/
theorem foldlM_represents {perform : ρ → γ → Except ε ρ} {represent : σ → ρ} {P : σ → Prop}
    {bound : κ} {cs : List γ} {s : σ} (hle : ∀ s c, size s ≤ size (apply s c))
    (hstep : ∀ s, ∀ c ∈ cs, P s → size (apply s c) ≤ bound →
      perform (represent s) c = .ok (represent (apply s c)) ∧ P (apply s c))
    (hs : P s) (hend : size (cs.foldl apply s) ≤ bound) :
    cs.foldlM perform (represent s) = .ok (represent (cs.foldl apply s)) ∧
      P (cs.foldl apply s) := by
  induction cs generalizing s with
  | nil => exact ⟨rfl, hs⟩
  | cons c cs ih =>
    -- the size after the first call is at most the one at the end
    obtain ⟨hfirst, hnext⟩ := hstep s c List.mem_cons_self hs (le_trans (le_foldl hle cs _) hend)
    obtain ⟨hrest, hlast⟩ := ih (fun s c hc => hstep s c (List.mem_cons_of_mem _ hc)) hnext hend
    refine ⟨?_, hlast⟩
    rw [List.foldlM_cons, hfirst]
    exact hrest

end Folds

/-! ## Conditions along a run -/

@[simp] theorem along_nil : Along step P s [] := trivial

theorem Along.head {a : α} {as : List α} (h : Along step P s (a :: as)) : P s a := h.1

theorem Along.tail {a : α} {as : List α} (h : Along step P s (a :: as))
    (hstep : step s a = .ok t) : Along step P t as := h.2 t hstep

theorem Along.cons_ok {a : α} {as : List α} (hP : P s a) (hstep : step s a = .ok t)
    (h : Along step P t as) : Along step P s (a :: as) := by
  refine ⟨hP, ?_⟩
  intro t' ht'
  cases hstep.symm.trans ht'
  exact h

theorem Along.append {as bs : List α} (h : Along step P s as) (hrun : run step s as = .ok t)
    (h' : Along step P t bs) : Along step P s (as ++ bs) := by
  induction as generalizing s with
  | nil => cases hrun; exact h'
  | cons a as ih =>
    obtain ⟨u, hstep, hrest⟩ := run_cons_eq_ok hrun
    exact .cons_ok h.head hstep (ih (h.tail hstep) hrest)

/-- A condition on the actions alone holds along every run made of such actions. -/
theorem along_of_forall {p : α → Prop} {as : List α} (h : ∀ a ∈ as, p a) :
    Along step (fun _ a => p a) s as := by
  induction as generalizing s with
  | nil => trivial
  | cons a as ih =>
    exact ⟨h a (List.mem_cons_self ..),
      fun _ _ => ih fun b hb => h b (List.mem_cons_of_mem _ hb)⟩

theorem Along.mono {as : List α} (hPQ : ∀ s a, P s a → Q s a) (h : Along step P s as) :
    Along step Q s as := by
  induction as generalizing s with
  | nil => trivial
  | cons a as ih => exact ⟨hPQ s a h.head, fun t ht => ih (h.tail ht)⟩

theorem Along.and {as : List α} (hP : Along step P s as) (hQ : Along step Q s as) :
    Along step (fun s a => P s a ∧ Q s a) s as := by
  induction as generalizing s with
  | nil => trivial
  | cons a as ih => exact ⟨⟨hP.head, hQ.head⟩, fun t ht => ih (hP.tail ht) (hQ.tail ht)⟩

/-! ## Invariants -/

/-- **Invariant rule**: what every admitted step preserves, every admitted run preserves. -/
theorem run_invariant {I : σ → Prop}
    (hstep : ∀ s a t, I s → P s a → step s a = .ok t → I t)
    {as : List α} (hs : I s) (hP : Along step P s as) (hrun : run step s as = .ok t) : I t := by
  induction as generalizing s with
  | nil => cases hrun; exact hs
  | cons a as ih =>
    obtain ⟨s', h, hrest⟩ := run_cons_eq_ok hrun
    exact ih (hstep s a s' hs hP.head h) (hP.tail h) hrest

/-- An admitted run is in the invariant at every step. -/
theorem Along.invariant {I : σ → Prop}
    (hstep : ∀ s a t, I s → P s a → step s a = .ok t → I t)
    {as : List α} (hs : I s) (hP : Along step P s as) :
    Along step (fun s a => I s ∧ P s a) s as := by
  induction as generalizing s with
  | nil => trivial
  | cons a as ih =>
    exact ⟨⟨hs, hP.head⟩, fun t ht => ih (hstep s a t hs hP.head ht) (hP.tail ht)⟩

/-- **Safety rule**: if no admitted step fails from a state of the invariant and every
admitted step preserves it, no admitted run fails and every state it reaches has it. -/
theorem run_ok {I : σ → Prop}
    (hstep : ∀ s a, I s → P s a → ∃ t, step s a = .ok t ∧ I t)
    {as : List α} (hs : I s) (hP : Along step P s as) :
    ∃ t, run step s as = .ok t ∧ I t := by
  induction as generalizing s with
  | nil => exact ⟨s, rfl, hs⟩
  | cons a as ih =>
    obtain ⟨s', h, hI⟩ := hstep s a hs hP.head
    rw [run_cons_ok h]
    exact ih hI (hP.tail h)

/-- **History rule**: a property of the past that a step keeps exactly when it meets `P` holds at
the end of a run exactly when it held before and every step of the run meets `P`. -/
theorem run_iff_along {I Good : σ → Prop}
    (hstep : ∀ s a t, I s → step s a = .ok t → I t ∧ (Good t ↔ Good s ∧ P s a))
    {as : List α} (hs : I s) (hrun : run step s as = .ok t) :
    Good t ↔ Good s ∧ Along step P s as := by
  induction as generalizing s with
  | nil => cases hrun; exact (and_iff_left trivial).symm
  | cons a as ih =>
    obtain ⟨u, h, hrest⟩ := run_cons_eq_ok hrun
    obtain ⟨hI, hgood⟩ := hstep s a u hs h
    rw [ih hI hrest, hgood, and_assoc]
    refine and_congr_right fun _ => ⟨fun ⟨hP, hu⟩ => .cons_ok hP h hu, fun hP => ⟨hP.head, hP.tail h⟩⟩

/-- **Safety up to a condition**: if every admitted step that meets `P` keeps the invariant, and one
that does not leads to a state that is not good, then all the states of an admitted run are good
exactly when all its steps meet `P`. -/
theorem always_iff_along {I Good : σ → Prop} (hgood : ∀ s, I s → Good s)
    (hstep : ∀ s a t, I s → Q s a → step s a = .ok t → (P s a → I t) ∧ (Good t → P s a))
    {as : List α} (hs : I s) (hQ : Along step Q s as) (hrun : run step s as = .ok t) :
    Along step (fun s _ => Good s) s as ∧ Good t ↔ Along step P s as := by
  induction as generalizing s with
  | nil =>
    cases hrun
    exact ⟨fun _ => trivial, fun _ => ⟨trivial, hgood _ hs⟩⟩
  | cons a as ih =>
    obtain ⟨u, h, hrest⟩ := run_cons_eq_ok hrun
    obtain ⟨hkeeps, hneeds⟩ := hstep s a u hs hQ.head h
    constructor
    · rintro ⟨halong, ht⟩
      have hu : Good u := by
        cases as with
        | nil =>
          cases hrest
          exact ht
        | cons b bs => exact (halong.tail h).head
      have hP := hneeds hu
      exact .cons_ok hP h ((ih (hkeeps hP) (hQ.tail h) hrest).mp ⟨halong.tail h, ht⟩)
    · intro halong
      obtain ⟨halong', ht⟩ := (ih (hkeeps halong.head) (hQ.tail h) hrest).mpr (halong.tail h)
      exact ⟨.cons_ok (hgood _ hs) h halong', ht⟩

/-- **Blame rule**: some errors are bad. If a step that meets `P` has no bad error and keeps the
invariant, and one that does not meet `P` has one, then a run has no bad error exactly when all its
steps meet `P`. -/
theorem run_avoids_iff_along {I : σ → Prop} {Bad : ε → Prop}
    (hkeeps : ∀ s a, I s → P s a →
      (∀ e, step s a = .error e → ¬ Bad e) ∧ ∀ t, step s a = .ok t → I t)
    (hfails : ∀ s a, I s → ¬ P s a → ∃ e, step s a = .error e ∧ Bad e) {as : List α} (hs : I s) :
    (∀ e, run step s as = .error e → ¬ Bad e) ↔ Along step P s as := by
  induction as generalizing s with
  | nil => exact ⟨fun _ => trivial, fun _ e h => by cases h⟩
  | cons a as ih =>
    constructor
    · intro havoids
      have hP : P s a := by
        by_contra hnot
        obtain ⟨e, hstep, hbad⟩ := hfails s a hs hnot
        exact havoids e (by simp only [run, hstep]) hbad
      refine ⟨hP, fun t ht => (ih ((hkeeps s a hs hP).2 t ht)).mp fun e he => ?_⟩
      exact havoids e ((run_cons_ok ht).trans he)
    · intro halong e he
      obtain ⟨hgood, hnext⟩ := hkeeps s a hs halong.head
      cases hstep : step s a with
      | error e' =>
        simp only [run, hstep] at he
        cases he
        exact hgood e hstep
      | ok t =>
        rw [run_cons_ok hstep] at he
        exact (ih (hnext t hstep)).mpr (halong.tail hstep) e he

/-- The invariant rule for runs without any condition on the actions. -/
theorem run_invariant' {I : σ → Prop}
    (hstep : ∀ s a t, I s → step s a = .ok t → I t)
    {as : List α} (hs : I s) (hrun : run step s as = .ok t) : I t :=
  run_invariant (P := fun _ _ => True) (fun s a t hI _ h => hstep s a t hI h) hs
    (along_of_forall (p := fun _ => True) fun _ _ => trivial) hrun

end TransitionRun
