import Sails.Base.AutoData

/-!
# `operator==` of `auto_data`

Comparison by tag: strings, booleans and numbers by their values, all other types never equal.

- `SameValue`: the same type, and the same tree of scalars, maps and lists; the two zeros of a
  `double` are one number
- `eq_iff_sameValue_iff`: `operator==` tells it exactly for values that are not two equal nulls, maps
  or lists
-/

namespace Sails.Base

namespace Value

mutual

/-- The value with each `double` replaced by the number it stands for. -/
def numbers : Value → Value
  | .float f => .float f.number
  | .map rows => .map (numbersRows rows)
  | .list items => .list (numbersItems items)
  | v => v
termination_by structural v => v

def numbersRows : List (CMemory.Bytes × Value) → List (CMemory.Bytes × Value)
  | [] => []
  | (k, v) :: rows => (k, v.numbers) :: numbersRows rows
termination_by structural rows => rows

def numbersItems : List Value → List Value
  | [] => []
  | v :: items => v.numbers :: numbersItems items
termination_by structural items => items

end

end Value

/-- Numbers are compared as numbers. -/
theorem Double.eq_iff {f g : Double} (hf : ¬f.IsNaN) (hg : ¬g.IsNaN) :
    f.eq g = true ↔ f.number = g.number := by
  simp [Double.eq, hf, hg]

namespace AutoData

/-- **Structural equality**: the same type and equal contents. -/
def SameValue (x y : AutoData) : Prop := x.type = y.type ∧ x.meaning.numbers = y.meaning.numbers

/-- The types whose contents are compared. -/
def Compared (type : DataType) : Prop := type ≠ .null ∧ type ≠ .map ∧ type ≠ .list

instance (type : DataType) : Decidable (Compared type) := inferInstanceAs (Decidable (_ ∧ _))

/-- The object is not a `double` that is not a number. -/
def NotNaN (x : AutoData) : Prop := x.type = .numberFloat → ¬Double.IsNaN x.value.fVal

variable {x y : AutoData}

theorem type_eq_of_eq (h : x.eq y = true) : x.type = y.type := by
  by_contra hne
  rw [eq, if_pos hne] at h
  cases h

/-- Objects of a type that is not compared are not equal to anything. -/
theorem not_eq_of_not_compared (h : ¬Compared x.type) : x.eq y = false := by
  rw [eq]
  split_ifs
  · rfl
  · cases htype : x.type with
    | null | map | list => rfl
    | string | boolean | numberInteger | numberFloat =>
      rw [htype] at h
      exact absurd (by decide) h

/-- Of the others, those with the same contents are equal. -/
theorem eq_iff_of_compared (h : Compared x.type) (hx : x.NotNaN) (hy : y.NotNaN) :
    x.eq y = true ↔ x.SameValue y := by
  obtain ⟨type, value, mapData, listData⟩ := x
  obtain ⟨type', value', mapData', listData'⟩ := y
  by_cases htype : type = type'
  · subst htype
    cases type with
    | null => exact absurd rfl h.1
    | map => exact absurd rfl h.2.1
    | list => exact absurd rfl h.2.2
    | string =>
      show (value.str == value'.str) = true ↔ _ ∧ Value.string value.str = .string value'.str
      rw [beq_iff_eq, Value.string.injEq]
      exact ⟨fun heq => ⟨rfl, heq⟩, And.right⟩
    | boolean =>
      show (value.boolean == value'.boolean) = true ↔
        _ ∧ Value.boolean value.boolean = .boolean value'.boolean
      rw [beq_iff_eq, Value.boolean.injEq]
      exact ⟨fun heq => ⟨rfl, heq⟩, And.right⟩
    | numberInteger =>
      show (value.intVal == value'.intVal) = true ↔
        _ ∧ Value.integer value.intVal = .integer value'.intVal
      rw [beq_iff_eq, Value.integer.injEq]
      exact ⟨fun heq => ⟨rfl, heq⟩, And.right⟩
    | numberFloat =>
      show Double.eq value.fVal value'.fVal = true ↔
        _ ∧ Value.float value.fVal.number = .float value'.fVal.number
      rw [Double.eq_iff (hx rfl) (hy rfl), Value.float.injEq]
      exact ⟨fun heq => ⟨rfl, heq⟩, And.right⟩
  · have hdiffer : ¬SameValue ⟨type, value, mapData, listData⟩ ⟨type', value', mapData', listData'⟩ :=
      fun hsame => htype hsame.1
    exact ⟨fun heq => absurd (type_eq_of_eq heq) htype, fun hsame => absurd hsame hdiffer⟩

/-- **`operator==` is structural equality** for two objects exactly when they are not the same null,
map or list. -/
theorem eq_iff_sameValue_iff (hx : x.NotNaN) (hy : y.NotNaN) :
    (x.eq y = true ↔ x.SameValue y) ↔ ¬(x.SameValue y ∧ ¬Compared x.type) := by
  by_cases h : Compared x.type
  · have hiff := eq_iff_of_compared h hx hy
    exact ⟨fun _ hnot => hnot.2 h, fun _ => hiff⟩
  · rw [not_eq_of_not_compared h]
    constructor
    · rintro hiff ⟨hsame, -⟩
      exact Bool.false_ne_true (hiff.mpr hsame)
    · intro hnot
      exact ⟨fun heq => absurd heq Bool.false_ne_true, fun hsame => absurd ⟨hsame, h⟩ hnot⟩

/-- The two zeros. -/
theorem eq_iff_sameValue_iff_zeros :
    (ofDouble 0).eq (ofDouble 0x8000000000000000) = true ↔
      (ofDouble 0).SameValue (ofDouble 0x8000000000000000) := by
  refine (eq_iff_sameValue_iff (fun _ => ?_) fun _ => ?_).mpr fun h => h.2 (by decide)
  · decide
  · decide

/-- A null is not equal to itself, and neither is a map or a list. -/
theorem eq_not_reflexive :
    null.SameValue null ∧ null.eq null = false ∧
      (⟨.map, {}, [([97], ofInt 1)], []⟩ : AutoData).eq ⟨.map, {}, [([97], ofInt 1)], []⟩ = false ∧
      (⟨.list, {}, [], [ofInt 1]⟩ : AutoData).eq ⟨.list, {}, [], [ofInt 1]⟩ = false :=
  ⟨⟨rfl, rfl⟩, rfl, rfl, rfl⟩

end AutoData

end Sails.Base
