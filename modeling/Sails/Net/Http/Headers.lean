import Sails.Net.Http.Safety
import Mathlib.Data.List.GetD

/-!
# Texts and headers of a message as lists of bytes

- `IsText`, `Text`: strings that a character array can hold
- `headerTable`: the array `headers` of a record that holds a list of names and values
-/

namespace Sails.Net

open TransitionRun
open CMemory
open Sails.Base

/-! ## Texts -/

/-- A string that a `char[n]` can hold. -/
def IsText (n : Nat) (s : Bytes) : Prop := s.length < n ∧ ∀ c ∈ s, c ≠ 0

instance (n : Nat) (s : Bytes) : Decidable (IsText n s) :=
  @instDecidableAnd _ _ (Nat.decLt s.length n) (List.decidableBAll _ s)

theorem IsText.of_append {n : Nat} {s t : Bytes} (h : IsText n (s ++ t)) : IsText n s :=
  ⟨lt_of_le_of_lt (by simp) h.1, fun c hc => h.2 c (List.mem_append_left _ hc)⟩

/-- Such a string. -/
structure Text (n : Nat) where
  bytes : Bytes
  isText : IsText n bytes

theorem Text.str_ofBytes {n : Nat} (t : Text n) : (CharArray.ofBytes n t.bytes).str = t.bytes :=
  CharArray.str_ofBytes t.isText.1 t.isText.2

theorem Text.terminated_ofBytes {n : Nat} (t : Text n) : (CharArray.ofBytes n t.bytes).Terminated :=
  CharArray.terminated_ofBytes t.isText.1

/-! ## The array of headers -/

/-- The array `headers` with these names and values in its first places. -/
def headerTable (hs : List (Bytes × Bytes)) (i : Fin maxHeaders) : Header where
  name := .ofBytes _ (hs.getD i ([], [])).1
  value := .ofBytes _ (hs.getD i ([], [])).2

theorem headerTable_nil : headerTable [] = fun _ => ⟨.zero _, .zero _⟩ := by
  funext i
  simp [headerTable]

/-- A place not used yet looks like a header without texts. -/
theorem headerTable_concat_nil (hs : List (Bytes × Bytes)) :
    headerTable (hs ++ [([], [])]) = headerTable hs := by
  funext i
  have hget : (hs ++ [([], [])]).getD i (([], []) : Bytes × Bytes) = hs.getD i ([], []) := by
    -- in front of the new place, at it and behind it
    rcases lt_trichotomy (i : Nat) hs.length with hlt | heq | hgt
    · rw [List.getD_append _ _ _ _ hlt]
    · rw [List.getD_append_right _ _ _ _ heq.ge, List.getD_eq_default _ _ heq.ge, heq, Nat.sub_self]
      rfl
    · rw [List.getD_eq_default _ _ (by simp; omega), List.getD_eq_default _ _ hgt.le]
  rw [headerTable, headerTable, hget]

theorem headerTable_of_getElem? {hs : List (Bytes × Bytes)} {i : Fin maxHeaders} {h : Bytes × Bytes}
    (hget : hs[(i : Nat)]? = some h) :
    headerTable hs i = ⟨.ofBytes _ h.1, .ofBytes _ h.2⟩ := by
  have hgetD : hs.getD i ([], []) = h := by rw [List.getD_eq_getElem?_getD, hget, Option.getD_some]
  rw [headerTable, hgetD]

theorem headerTable_last (hs : List (Bytes × Bytes)) (h : Bytes × Bytes)
    (hlt : hs.length < maxHeaders) :
    headerTable (hs ++ [h]) ⟨hs.length, hlt⟩ = ⟨.ofBytes _ h.1, .ofBytes _ h.2⟩ :=
  headerTable_of_getElem? (by simp)

/-- Writing one header. -/
theorem update_headerTable_set (hs : List (Bytes × Bytes)) (i : Fin maxHeaders) (h : Bytes × Bytes)
    (hi : (i : Nat) < hs.length) :
    Function.update (headerTable hs) i ⟨.ofBytes _ h.1, .ofBytes _ h.2⟩ = headerTable (hs.set i h) := by
  funext j
  by_cases hj : j = i
  · subst hj
    rw [Function.update_self, headerTable_of_getElem? (List.getElem?_set_self hi)]
  · have hne : (i : Nat) ≠ j := fun heq => hj (Fin.ext heq.symm)
    have hget : (hs.set i h).getD j ([], []) = hs.getD j ([], []) := by
      rw [List.getD_eq_getElem?_getD, List.getElem?_set_ne hne, List.getD_eq_getElem?_getD]
    rw [Function.update_of_ne hj, headerTable, headerTable, hget]

/-- Writing the last header. -/
theorem update_headerTable (hs : List (Bytes × Bytes)) (h h' : Bytes × Bytes)
    (hlt : hs.length < maxHeaders) :
    Function.update (headerTable (hs ++ [h])) ⟨hs.length, hlt⟩ ⟨.ofBytes _ h'.1, .ofBytes _ h'.2⟩ =
      headerTable (hs ++ [h']) := by
  rw [update_headerTable_set _ _ _ (by simp), List.set_append_right _ _ le_rfl, Nat.sub_self]
  rfl

theorem headerAt_natCast {i : Nat} (h : i < maxHeaders) : headerAt (i : Int) = .ok ⟨i, h⟩ := by
  obtain ⟨j, hj, hi⟩ := headerAt_of_mem (i := (i : Int)) (by omega) (by omega)
  have hij : j = ⟨i, h⟩ := Fin.ext (Int.ofNat_inj.mp hi)
  rw [hj, hij]

end Sails.Net
