import Mathlib.Data.List.Basic
import Mathlib.Data.List.Chain

/-!
# Joining neighbours of one kind

A sequence of events in which neighbours of one kind belong together, as the pieces of a text that
is handed over bit by bit. Joining them gives a normal form that does not depend on how the text
was cut.

- `coalesce`: the sequence with neighbours of one kind joined
- `foldr_push_coalesce`: joining a part first makes no difference
- `coalesce_append_congr`: parts that join to the same are interchangeable
- `coalesce_of_isChain`: a sequence without such neighbours is its own normal form
- `coalesce_join`: two neighbours of one kind are as good as the one they join to
- `JoinsTo`, `exists_groups`: the sequence is made of groups, and each has joined to one event
-/

namespace Coalesce

/-- How events join: `kind` is `none` for an event that joins with nothing. -/
structure Joins (ε κ : Type*) where
  kind : ε → Option κ
  join : ε → ε → ε
  kind_join : ∀ a b, kind a = kind b → kind (join a b) = kind a
  join_assoc : ∀ a b c, kind a = kind b → kind b = kind c → join (join a b) c = join a (join b c)

variable {ε κ : Type*} {j : Joins ε κ} {l l' m m' r : List ε} {a b c e : ε}

/-- Two events that belong together. -/
def Joins.Joinable (j : Joins ε κ) (a b : ε) : Prop := (j.kind a).isSome ∧ j.kind a = j.kind b

instance [DecidableEq κ] (j : Joins ε κ) (a b : ε) : Decidable (j.Joinable a b) :=
  inferInstanceAs (Decidable (_ ∧ _))

/-- Whether an event joins with the one behind it is not changed by joining it with one in front. -/
theorem joinable_join_iff (h : j.Joinable a b) : j.Joinable (j.join a b) c ↔ j.Joinable b c := by
  rw [Joins.Joinable, Joins.Joinable, j.kind_join a b h.2, h.2]

theorem Joins.Joinable.join_right (h : j.Joinable a b) (hc : j.Joinable b c) :
    j.Joinable a (j.join b c) :=
  ⟨h.1, h.2.trans (j.kind_join b c hc.2).symm⟩

variable [DecidableEq κ]

/-- Put an event in front of a joined sequence. -/
def push (j : Joins ε κ) (e : ε) : List ε → List ε
  | [] => [e]
  | f :: fs => if j.Joinable e f then j.join e f :: fs else e :: f :: fs

/-- Join neighbours of one kind. -/
def coalesce (j : Joins ε κ) (l : List ε) : List ε := l.foldr (push j) []

@[simp] theorem coalesce_nil : coalesce j [] = [] := rfl

theorem coalesce_append (l m : List ε) : coalesce j (l ++ m) = l.foldr (push j) (coalesce j m) := by
  rw [coalesce, coalesce, List.foldr_append]

/-- The events of a pair are put in front one after the other, or joined. -/
theorem push_join (h : j.Joinable a b) (r : List ε) :
    push j (j.join a b) r = push j a (push j b r) := by
  cases r with
  | nil => simp only [push, if_pos h]
  | cons c r =>
    by_cases hc : j.Joinable b c
    · rw [push, if_pos ((joinable_join_iff h).mpr hc), push, if_pos hc, push,
        if_pos (h.join_right hc), j.join_assoc a b c h.2 hc.2]
    · rw [push, if_neg (mt (joinable_join_iff h).mp hc), push, if_neg hc, push, if_pos h]

theorem foldr_push_push (e : ε) (l r : List ε) :
    (push j e l).foldr (push j) r = push j e (l.foldr (push j) r) := by
  cases l with
  | nil => rfl
  | cons f l =>
    by_cases h : j.Joinable e f
    · rw [push, if_pos h, List.foldr_cons, List.foldr_cons, push_join h]
    · rw [push, if_neg h, List.foldr_cons]

theorem foldr_push_coalesce (l r : List ε) :
    (coalesce j l).foldr (push j) r = l.foldr (push j) r := by
  induction l with
  | nil => rfl
  | cons e l ih =>
    have hcons : coalesce j (e :: l) = push j e (coalesce j l) := rfl
    rw [hcons, foldr_push_push, ih, List.foldr_cons]

@[simp] theorem coalesce_coalesce (l : List ε) : coalesce j (coalesce j l) = coalesce j l :=
  foldr_push_coalesce l []

/-- Parts that join to the same are interchangeable. -/
theorem coalesce_append_congr (hl : coalesce j l = coalesce j l')
    (hm : coalesce j m = coalesce j m') : coalesce j (l ++ m) = coalesce j (l' ++ m') := by
  rw [coalesce_append, coalesce_append, hm, ← foldr_push_coalesce, hl, foldr_push_coalesce]

/-- Two neighbours of one kind are as good as the one they join to. -/
theorem coalesce_join (h : j.Joinable a b) (l m : List ε) :
    coalesce j (l ++ a :: b :: m) = coalesce j (l ++ j.join a b :: m) := by
  have hpair : coalesce j (a :: b :: m) = coalesce j (j.join a b :: m) := (push_join h _).symm
  rw [coalesce_append, coalesce_append, hpair]

/-- Where no two neighbours belong together, there is nothing to join. -/
theorem coalesce_of_isChain (h : l.IsChain fun a b => ¬ j.Joinable a b) : coalesce j l = l := by
  induction l with
  | nil => rfl
  | cons a l ih =>
    have hl : coalesce j l = l := ih (List.IsChain.tail h)
    have hcons : coalesce j (a :: l) = push j a (coalesce j l) := rfl
    rw [hcons, hl]
    cases l with
    | nil => rfl
    | cons b l => rw [push, if_neg (List.isChain_cons_cons.mp h).1]

/-! ## Groups -/

/-- The events of a group join to this one. -/
inductive JoinsTo (j : Joins ε κ) : List ε → ε → Prop
  | one (e : ε) : JoinsTo j [e] e
  | more {a b : ε} {g : List ε} : j.Joinable a b → JoinsTo j g b → JoinsTo j (a :: g) (j.join a b)

/-- The sequence is made of groups, and each has joined to one event. -/
theorem exists_groups (j : Joins ε κ) (l : List ε) :
    ∃ gs : List (List ε), gs.flatten = l ∧ List.Forall₂ (JoinsTo j) gs (coalesce j l) := by
  induction l with
  | nil => exact ⟨[], rfl, .nil⟩
  | cons e l ih =>
    obtain ⟨gs, hflat, hgroups⟩ := ih
    have hcons : coalesce j (e :: l) = push j e (coalesce j l) := rfl
    rw [hcons]
    generalize coalesce j l = joined at hgroups
    cases hgroups with
    | nil => exact ⟨[[e]], by rw [List.flatten_cons, hflat]; rfl, .cons (.one e) .nil⟩
    | @cons g f gs fs hg hgs =>
      by_cases hjoin : j.Joinable e f
      · refine ⟨(e :: g) :: gs, by rw [← hflat]; rfl, ?_⟩
        rw [push, if_pos hjoin]
        exact .cons (.more hjoin hg) hgs
      · refine ⟨[e] :: g :: gs, by rw [← hflat]; rfl, ?_⟩
        rw [push, if_neg hjoin]
        exact .cons (.one e) (.cons hg hgs)

end Coalesce
