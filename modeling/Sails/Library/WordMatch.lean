import Mathlib.Data.List.Basic
import Mathlib.Logic.Function.Basic

/-!
# Recognising a word

A word is recognised letter by letter, up to what a function makes of the letters (lower case, say),
with blanks allowed behind it.

- `Progress`, `Progress.step`: how far the recogniser is, and a further letter
- `IsWord`: the text is the word, with blanks behind it
- `Tracks`: what the progress says of the letters so far
- `progress_eq_seen_iff`: the word has been seen exactly if the text is the word
- `stepAll`, `only`: several words at once, and one of them
-/

namespace WordMatch

variable {α β : Type*}

/-- How far the recogniser is. -/
inductive Progress where
  /-- the letters up to the one at `i` are those of the word, and there are more -/
  | matching (i : Nat)
  | seen
  | failed
  deriving DecidableEq

/-- A further letter. -/
def Progress.step [DecidableEq β] (f : α → β) (blank : α → Bool) (w : List β) (p : Progress) (a : α) : Progress :=
  match p with
  | matching i =>
    if w[i + 1]? = some (f a) then if i + 2 = w.length then .seen else .matching (i + 1)
    else .failed
  | seen => if blank a then .seen else .failed
  | failed => .failed

/-- The first letter of a word of two letters or more. -/
def Progress.first [DecidableEq β] (f : α → β) (w : List β) (a : α) : Progress :=
  if w[0]? = some (f a) then .matching 0 else .failed

/-- The progress behind a text. -/
def progress [DecidableEq β] (f : α → β) (blank : α → Bool) (w : List β) : List α → Progress
  | [] => .failed
  | a :: t => t.foldl (Progress.step f blank w) (.first f w a)

/-- The text is the word, with blanks behind it. -/
def IsWord (f : α → β) (blank : α → Bool) (w : List β) (t : List α) : Prop :=
  (t.take w.length).map f = w ∧ ∀ a ∈ t.drop w.length, blank a = true

instance [DecidableEq β] (f : α → β) (blank : α → Bool) (w : List β) (t : List α) :
    Decidable (IsWord f blank w t) :=
  inferInstanceAs (Decidable (_ ∧ _))

/-- What the progress says of the letters so far. -/
def Tracks (f : α → β) (blank : α → Bool) (w : List β) (t : List α) : Progress → Prop
  | .matching i => t.map f = w.take (i + 1) ∧ i + 1 < w.length
  | .seen => IsWord f blank w t
  | .failed => ∀ u, ¬ IsWord f blank w (t ++ u)

variable {f : α → β} {blank : α → Bool} {w : List β} {t u : List α} {a : α} {p : Progress}

theorem IsWord.length_le (h : IsWord f blank w t) : w.length ≤ t.length := by
  have hlen := congrArg List.length h.1
  rw [List.length_map, List.length_take] at hlen
  omega

/-- What the function and the blanks do not tell apart does not matter. -/
theorem isWord_map {g : α → α} (hf : ∀ a, f (g a) = f a) (hblank : ∀ a, blank (g a) = blank a) :
    IsWord f blank w (t.map g) ↔ IsWord f blank w t := by
  simp [IsWord, ← List.map_take, ← List.map_drop, Function.comp_def, hf, hblank]

/-- The letters of a text that begins as a word are those of the word. -/
theorem IsWord.getElem? (h : IsWord f blank w (t ++ a :: u)) (hlt : t.length < w.length) :
    w[t.length]? = some (f a) := by
  have hget := congrArg (fun l => l[t.length]?) h.1
  rw [List.getElem?_map, List.getElem?_take, if_pos hlt, List.getElem?_append_right (Nat.le_refl _),
    Nat.sub_self] at hget
  exact hget.symm

variable [DecidableEq β]

/-- One more letter. -/
theorem Tracks.step (h : Tracks f blank w t p) :
    Tracks f blank w (t ++ [a]) (p.step f blank w a) := by
  cases p with
  | matching i =>
    obtain ⟨hmap, hlt⟩ := h
    have hlen : t.length = i + 1 := by
      have hl := congrArg List.length hmap
      rw [List.length_map, List.length_take] at hl
      omega
    unfold Progress.step
    dsimp only
    split_ifs with hletter hlast
    -- the last letter of the word
    · have hword : (t ++ [a]).map f = w := by
        rw [List.map_append, hmap, List.map_singleton]
        have htake := List.take_append_getElem (l := w) hlt
        rw [List.getElem?_eq_getElem hlt] at hletter
        rw [← Option.some.inj hletter, htake, hlast, List.take_length]
      have hsize : (t ++ [a]).length = w.length := by rw [← hword, List.length_map]
      refine ⟨by rw [← hsize, List.take_length, hword], ?_⟩
      rw [← hsize, List.drop_length]
      simp
    · refine ⟨?_, by omega⟩
      have htake := List.take_append_getElem (l := w) hlt
      rw [List.getElem?_eq_getElem hlt] at hletter
      rw [List.map_append, hmap, List.map_singleton, ← Option.some.inj hletter, htake]
    · intro u hu
      rw [List.append_assoc, List.singleton_append] at hu
      have hget := hu.getElem? (by omega)
      rw [hlen] at hget
      exact hletter hget
  | seen =>
    have hle := h.length_le
    unfold Progress.step
    dsimp only
    split_ifs with hblank
    · refine ⟨by rw [List.take_append_of_le_length hle]; exact h.1, ?_⟩
      rw [List.drop_append_of_le_length hle]
      intro b hb
      obtain hb | hb := List.mem_append.mp hb
      · exact h.2 b hb
      · rw [List.mem_singleton.mp hb]
        exact hblank
    · intro u hu
      rw [List.append_assoc, List.singleton_append] at hu
      apply hblank
      refine hu.2 a ?_
      rw [List.drop_append_of_le_length hle]
      simp
  | failed =>
    intro u hu
    rw [List.append_assoc] at hu
    exact h _ hu

theorem tracks_first (hw : 2 ≤ w.length) (a : α) : Tracks f blank w [a] (.first f w a) := by
  unfold Progress.first
  split_ifs with hletter
  · refine ⟨?_, by omega⟩
    rw [List.getElem?_eq_getElem (by omega)] at hletter
    rw [List.map_singleton, ← Option.some.inj hletter, ← List.take_append_getElem (by omega : 0 < _)]
    rfl
  · intro u hu
    exact hletter (IsWord.getElem? (t := []) hu (by simpa using by omega))

theorem tracks_foldl (h : Tracks f blank w t p) (u : List α) :
    Tracks f blank w (t ++ u) (u.foldl (Progress.step f blank w) p) := by
  induction u generalizing t p with
  | nil => rwa [List.append_nil]
  | cons a u ih =>
    have hmore := ih (h.step (a := a))
    rwa [List.append_assoc, List.singleton_append] at hmore

/-- **The word has been seen** exactly if the text is the word. -/
theorem progress_eq_seen_iff (hw : 2 ≤ w.length) (t : List α) :
    progress f blank w t = .seen ↔ IsWord f blank w t := by
  cases t with
  | nil =>
    refine ⟨fun h => (by cases h), fun h => ?_⟩
    have hle := h.length_le
    rw [List.length_nil] at hle
    omega
  | cons a t =>
    have htracks : Tracks f blank w (a :: t) (progress f blank w (a :: t)) :=
      tracks_foldl (tracks_first hw a) t
    cases hp : progress f blank w (a :: t) with
    | matching i =>
      rw [hp] at htracks
      refine ⟨fun h => (by cases h), fun h => ?_⟩
      have hlen := congrArg List.length htracks.1
      have hle := h.length_le
      have hlt := htracks.2
      rw [List.length_map, List.length_take] at hlen
      omega
    | seen =>
      rw [hp] at htracks
      exact ⟨fun _ => htracks, fun _ => rfl⟩
    | failed =>
      rw [hp] at htracks
      have hnot := htracks []
      rw [List.append_nil] at hnot
      exact ⟨fun h => (by cases h), fun h => absurd h hnot⟩

/-! ## Several words at once -/

section Several

variable {ι : Type*} {words : ι → List β} {ps : ι → Progress} {n : ι}

/-- The recognisers of several words take one more letter. -/
def stepAll (f : α → β) (blank : α → Bool) (words : ι → List β) (ps : ι → Progress) (a : α) :
    ι → Progress := fun n => (ps n).step f blank (words n) a

/-- Only one of the words is still possible. -/
def only [DecidableEq ι] (n : ι) (p : Progress) : ι → Progress :=
  Function.update (fun _ => .failed) n p

theorem foldl_stepAll_apply (ps : ι → Progress) (n : ι) (t : List α) :
    t.foldl (stepAll f blank words) ps n = t.foldl (Progress.step f blank (words n)) (ps n) := by
  induction t generalizing ps with
  | nil => rfl
  | cons a t ih =>
    rw [List.foldl_cons, List.foldl_cons, ih]
    rfl

variable [DecidableEq ι]

omit [DecidableEq β] in
theorem only_failed (n : ι) : only n .failed = fun _ => .failed := by
  simp [only]

theorem stepAll_only (n : ι) (p : Progress) (a : α) :
    stepAll f blank words (only n p) a = only n (p.step f blank (words n) a) := by
  funext m
  by_cases hm : m = n
  · subst hm
    simp [stepAll, only]
  · simp [stepAll, only, hm, Progress.step]

end Several

end WordMatch
