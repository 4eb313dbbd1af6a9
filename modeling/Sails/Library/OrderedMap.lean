import Mathlib.Data.List.Forall2
import Mathlib.Order.Basic

/-!
# Ordered maps as sorted rows

`std::map`: a row for each key, in the order of the keys. That the rows are sorted is a predicate and
not part of the type, so that a map can be nested in a type that is defined by recursion.

- `find`, `set`: look up a key, write a value under it
- `find_set`: what is found after writing
- `Sorted.set`: writing keeps the rows sorted
- `exists_foldlM_set`: rows taken one by one from a sorted map and written into an empty one
-/

universe u

namespace OrderedMap

variable {κ ν α : Type u} [DecidableEq κ]

/-- The value under a key. -/
def find (rows : List (κ × ν)) (k : κ) : Option ν :=
  (rows.find? fun r => decide (r.1 = k)).map Prod.snd

variable [LT κ] [DecidableLT κ]

/-- Write a value under a key, where there is a row for it or in the place for a new one. -/
def set : List (κ × ν) → κ → ν → List (κ × ν)
  | [], k, v => [(k, v)]
  | r :: rows, k, v =>
    if k < r.1 then (k, v) :: r :: rows
    else if r.1 = k then (r.1, v) :: rows
    else r :: set rows k v

omit [DecidableEq κ] [DecidableLT κ] in
/-- The rows are in the order of their keys. -/
def Sorted (rows : List (κ × ν)) : Prop := rows.Pairwise fun a b => a.1 < b.1

variable {rows : List (κ × ν)} {k : κ} {v : ν}

omit [LT κ] [DecidableLT κ] in
theorem mem_of_find (h : find rows k = some v) : ∃ r ∈ rows, r.2 = v := by
  rw [find, Option.map_eq_some_iff] at h
  obtain ⟨r, hr, hv⟩ := h
  exact ⟨r, List.mem_of_find?_eq_some hr, hv⟩

omit [DecidableEq κ] [DecidableLT κ] in
/-- Only the keys matter to the order. -/
theorem Sorted.of_keys {out : List (κ × α)} (h : Sorted rows)
    (hkeys : out.map Prod.fst = rows.map Prod.fst) : Sorted out := by
  have hpairwise : (rows.map Prod.fst).Pairwise (· < ·) := List.pairwise_map.mpr h
  rw [← hkeys] at hpairwise
  exact List.pairwise_map.mp hpairwise

/-- Writing adds no key but the one written. -/
theorem mem_set {r : κ × ν} (h : r ∈ set rows k v) : r = (k, v) ∨ r ∈ rows := by
  induction rows with
  | nil => exact .inl (List.mem_singleton.mp h)
  | cons s rows ih =>
    rw [set] at h
    split_ifs at h with hlt heq
    · rcases List.mem_cons.mp h with rfl | h
      · exact .inl rfl
      · exact .inr h
    · rcases List.mem_cons.mp h with rfl | h
      · exact .inl (by rw [heq])
      · exact .inr (List.mem_cons_of_mem _ h)
    · rcases List.mem_cons.mp h with rfl | h
      · exact .inr (List.mem_cons_self ..)
      · exact (ih h).imp_right (List.mem_cons_of_mem _)

omit [LT κ] [DecidableLT κ] in
theorem find_cons (r : κ × ν) (rows : List (κ × ν)) (k : κ) :
    find (r :: rows) k = if r.1 = k then some r.2 else find rows k := by
  rw [find, List.find?_cons]
  by_cases hr : r.1 = k
  · simp [hr]
  · simp [hr, find]

/-- **What is found after writing**: the value written under its key, and what was there under any
other. -/
theorem find_set (rows : List (κ × ν)) (k : κ) (v : ν) (k' : κ) :
    find (set rows k v) k' = if k' = k then some v else find rows k' := by
  induction rows with
  | nil =>
    rw [set, find_cons]
    simp only [eq_comm]
  | cons r rows ih =>
    rw [set]
    by_cases hlt : k < r.1
    · rw [if_pos hlt, find_cons]
      simp only [eq_comm]
    rw [if_neg hlt]
    by_cases heq : r.1 = k
    -- the row is the one of the key
    · rw [if_pos heq, find_cons, find_cons, heq]
      by_cases hk : k' = k
      · rw [if_pos hk, if_pos hk.symm]
      · rw [if_neg hk, if_neg (Ne.symm hk), if_neg (Ne.symm hk)]
    · rw [if_neg heq, find_cons, find_cons, ih]
      by_cases hr : r.1 = k'
      · have hk : k' ≠ k := fun hk => heq (hr.trans hk)
        rw [if_pos hr, if_pos hr, if_neg hk]
      · rw [if_neg hr, if_neg hr]

/-- **Writing keeps the order.** -/
theorem Sorted.set [Std.Trichotomous (α := κ) (· < ·)] [IsTrans κ (· < ·)] (h : Sorted rows) :
    Sorted (set rows k v) := by
  induction rows with
  | nil => exact List.pairwise_singleton _ _
  | cons r rows ih =>
    obtain ⟨hfirst, hrest⟩ := List.pairwise_cons.mp h
    rw [OrderedMap.set]
    split_ifs with hlt heq
    · refine List.pairwise_cons.mpr ⟨fun s hs => ?_, h⟩
      rcases List.mem_cons.mp hs with rfl | hs
      · exact hlt
      · exact IsTrans.trans _ _ _ hlt (hfirst s hs)
    · exact List.pairwise_cons.mpr ⟨hfirst, hrest⟩
    -- the row stays in front of the key
    · have hgt : r.1 < k := by
        by_contra hnot
        exact heq (Std.Trichotomous.trichotomous (r := (· < ·)) r.1 k hnot hlt)
      refine List.pairwise_cons.mpr ⟨fun s hs => ?_, ih hrest⟩
      rcases mem_set hs with rfl | hs
      · exact hgt
      · exact hfirst s hs

section Behind

variable [Std.Asymm (α := κ) (· < ·)]

omit [DecidableLT κ] in
/-- A key greater than all the others has no row. -/
theorem find_of_lt (h : ∀ r ∈ rows, r.1 < k) : find rows k = none := by
  rw [find, Option.map_eq_none_iff, List.find?_eq_none]
  intro r hr
  rw [decide_eq_true_eq]
  intro heq
  have hlt := h r hr
  rw [heq] at hlt
  exact Std.Asymm.asymm k k hlt hlt

/-- It is written behind them. -/
theorem set_of_lt (h : ∀ r ∈ rows, r.1 < k) : set rows k v = rows ++ [(k, v)] := by
  induction rows with
  | nil => rfl
  | cons r rows ih =>
    have hlt := h r (List.mem_cons_self ..)
    have hne : r.1 ≠ k := by
      intro heq
      rw [heq] at hlt
      exact Std.Asymm.asymm k k hlt hlt
    rw [set, if_neg (Std.Asymm.asymm r.1 k hlt), if_neg hne,
      ih fun s hs => h s (List.mem_cons_of_mem _ hs)]
    rfl

/-- **Row by row**: the rows of a sorted map are written into an empty one, each with a value made
from it and from what is found under its key. Nothing is ever found, and the keys are the same. -/
theorem exists_foldlM_set (make : Option ν → κ × α → Option ν) {R : κ × α → ν → Prop}
    {source : List (κ × α)} (hsorted : Sorted source)
    (hmake : ∀ r ∈ source, ∃ v, make none r = some v ∧ R r v) :
    ∃ out, source.foldlM (fun rows r => do
        let v ← make (find rows r.1) r
        return set rows r.1 v) [] = some out ∧
      List.Forall₂ (fun r s => s.1 = r.1 ∧ R r s.2) source out := by
  -- the rows written so far are in front of those to come
  have hfrom : ∀ (source : List (κ × α)) (before : List (κ × ν)), Sorted source →
      (∀ r ∈ source, ∃ v, make none r = some v ∧ R r v) →
      (∀ s ∈ before, ∀ r ∈ source, s.1 < r.1) →
      ∃ out, source.foldlM (fun rows r => do
          let v ← make (find rows r.1) r
          return set rows r.1 v) before = some (before ++ out) ∧
        List.Forall₂ (fun r s => s.1 = r.1 ∧ R r s.2) source out := by
    intro source
    induction source with
    | nil =>
      intro before _ _ _
      exact ⟨[], by rw [List.append_nil]; rfl, .nil⟩
    | cons r source ih =>
      intro before hsorted hmake hbefore
      obtain ⟨hfirst, hrest⟩ := List.pairwise_cons.mp hsorted
      obtain ⟨v, hv, hR⟩ := hmake r (List.mem_cons_self ..)
      have hlt : ∀ s ∈ before, s.1 < r.1 := fun s hs => hbefore s hs r (List.mem_cons_self ..)
      have hbefore' : ∀ s ∈ before ++ [(r.1, v)], ∀ q ∈ source, s.1 < q.1 := by
        intro s hs q hq
        rcases List.mem_append.mp hs with hs | hs
        · exact hbefore s hs q (List.mem_cons_of_mem _ hq)
        · rw [List.mem_singleton.mp hs]
          exact hfirst q hq
      obtain ⟨out, hout, hall⟩ := ih (before ++ [(r.1, v)]) hrest
        (fun q hq => hmake q (List.mem_cons_of_mem _ hq)) hbefore'
      refine ⟨(r.1, v) :: out, ?_, .cons ⟨rfl, hR⟩ hall⟩
      rw [List.foldlM_cons, find_of_lt hlt, hv]
      simp only [set_of_lt hlt]
      rw [List.append_assoc] at hout
      exact hout
  obtain ⟨out, hout, hall⟩ := hfrom source [] hsorted hmake (by simp)
  exact ⟨out, hout, hall⟩

end Behind

end OrderedMap
