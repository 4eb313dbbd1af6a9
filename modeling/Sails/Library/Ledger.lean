import Mathlib.Data.List.Perm.Basic

/-!
# Things kept at places

A state keeps things in several places: in queues, in the hands of threads. `Distinct` says that
no thing is at two places or twice at one. What a step does to the places is one of three moves.

- `Distinct.put`, `Distinct.fill`: one or more new things come to a place
- `Distinct.take`: a thing leaves its place
- `Distinct.move`: a thing goes from one place to another
-/

namespace Ledger

variable {π τ : Type*} {c c' : π → List τ} {p q : π} {x y : τ}

/-- No thing is at two places or twice at one. -/
structure Distinct (c : π → List τ) : Prop where
  nodup : ∀ p, (c p).Nodup
  apart : ∀ p q x, x ∈ c p → x ∈ c q → p = q

theorem distinct_empty : Distinct fun _ : π => ([] : List τ) :=
  ⟨fun _ => .nil, fun _ _ _ h => nomatch h⟩

/-- A new thing comes to place `p`. -/
structure Put (c c' : π → List τ) (p : π) (x : τ) : Prop where
  here : (c' p).Perm (x :: c p)
  other : ∀ q, q ≠ p → c' q = c q

theorem Put.mem (h : Put c c' p x) (hy : y ∈ c' q) : y ∈ c q ∨ y = x ∧ q = p := by
  by_cases hqp : q = p
  · subst hqp
    rcases List.mem_cons.mp (h.here.mem_iff.mp hy) with rfl | hmem
    · exact .inr ⟨rfl, rfl⟩
    · exact .inl hmem
  · rw [h.other q hqp] at hy
    exact .inl hy

theorem Distinct.put (h : Distinct c) (hnew : ∀ q, x ∉ c q) (hput : Put c c' p x) :
    Distinct c' := by
  constructor
  · intro q
    by_cases hqp : q = p
    · subst hqp
      exact hput.here.nodup_iff.mpr (List.nodup_cons.mpr ⟨hnew q, h.nodup q⟩)
    · rw [hput.other q hqp]
      exact h.nodup q
  -- a thing at two places is old at both, or the new one at both
  · intro q r y hq hr
    rcases hput.mem hq with hq | ⟨rfl, rfl⟩
    · rcases hput.mem hr with hr | ⟨rfl, -⟩
      · exact h.apart q r y hq hr
      · exact absurd hq (hnew q)
    · rcases hput.mem hr with hr | ⟨-, rfl⟩
      · exact absurd hr (hnew r)
      · rfl

/-- New things come to a place where nothing else is any more. -/
theorem Distinct.fill {xs : List τ} (h : Distinct c) (hnodup : xs.Nodup)
    (hnew : ∀ x ∈ xs, ∀ q, x ∉ c q) (hhere : c' p = xs) (hother : ∀ q, q ≠ p → c' q = c q) :
    Distinct c' := by
  -- what is at a place now was there before, or is new
  have hplace : ∀ {q x}, x ∈ c' q → x ∈ c q ∨ q = p ∧ x ∈ xs := by
    intro q x hx
    by_cases hq : q = p
    · subst hq
      exact .inr ⟨rfl, hhere ▸ hx⟩
    · rw [hother q hq] at hx
      exact .inl hx
  constructor
  · intro q
    by_cases hq : q = p
    · subst hq
      rw [hhere]
      exact hnodup
    · rw [hother q hq]
      exact h.nodup q
  · intro q r x hq hr
    rcases hplace hq with hq | ⟨rfl, hx⟩
    · rcases hplace hr with hr | ⟨-, hx⟩
      · exact h.apart q r x hq hr
      · exact absurd hq (hnew x hx q)
    · rcases hplace hr with hr | ⟨rfl, -⟩
      · exact absurd hr (hnew x hx r)
      · rfl

/-- A thing leaves place `p`. -/
abbrev Take (c c' : π → List τ) (p : π) (x : τ) : Prop := Put c' c p x

theorem Take.mem (h : Take c c' p x) (hy : y ∈ c' q) : y ∈ c q := by
  by_cases hqp : q = p
  · subst hqp
    exact h.here.mem_iff.mpr (List.mem_cons_of_mem _ hy)
  · rwa [h.other q hqp]

theorem Take.mem_place (h : Take c c' p x) : x ∈ c p :=
  h.here.mem_iff.mpr (List.mem_cons_self ..)

theorem Distinct.take (h : Distinct c) (htake : Take c c' p x) : Distinct c' := by
  constructor
  · intro q
    by_cases hqp : q = p
    · subst hqp
      exact (List.nodup_cons.mp (htake.here.nodup_iff.mp (h.nodup q))).2
    · rw [← htake.other q hqp]
      exact h.nodup q
  · exact fun q r y hq hr => h.apart q r y (htake.mem hq) (htake.mem hr)

/-- What has left its place is nowhere. -/
theorem Distinct.gone (h : Distinct c) (htake : Take c c' p x) (q : π) : x ∉ c' q := by
  intro hx
  obtain rfl := h.apart q p x (htake.mem hx) htake.mem_place
  exact (List.nodup_cons.mp (htake.here.nodup_iff.mp (h.nodup q))).1 hx

/-- A thing goes from place `p` to place `q`. -/
structure Move (c c' : π → List τ) (p q : π) (x : τ) : Prop where
  ne : p ≠ q
  source : (c p).Perm (x :: c' p)
  target : (c' q).Perm (x :: c q)
  other : ∀ r, r ≠ p → r ≠ q → c' r = c r

/-- A move is a taking and a putting. -/
theorem Move.split [DecidableEq π] (h : Move c c' p q x) :
    ∃ d, Take c d p x ∧ Put d c' q x := by
  -- in between the thing is nowhere
  refine ⟨fun r => if r = p then c' p else c r, ⟨?_, ?_⟩, ⟨?_, ?_⟩⟩
  · simpa using h.source
  · intro r hr
    simp [hr]
  · simpa [Ne.symm h.ne] using h.target
  · intro r hr
    by_cases hrp : r = p
    · subst hrp
      simp
    · simpa [hrp] using h.other r hrp hr

theorem Distinct.move [DecidableEq π] (h : Distinct c) (hmove : Move c c' p q x) : Distinct c' := by
  obtain ⟨d, htake, hput⟩ := hmove.split
  exact (h.take htake).put (h.gone htake) hput

theorem Move.mem [DecidableEq π] {r : π} (h : Move c c' p q x) (hy : y ∈ c' r) : ∃ s, y ∈ c s := by
  obtain ⟨d, htake, hput⟩ := h.split
  rcases hput.mem hy with hmem | ⟨rfl, -⟩
  · exact ⟨r, htake.mem hmem⟩
  · exact ⟨p, htake.mem_place⟩

end Ledger
