import Sails.Library.CMemory
import Sails.Library.OrderedMap

/-!
# `auto_data`

A value whose type is known at run time only: null, a string, a boolean, a number, a map or a list.
The class keeps a tag and a member for each kind of content; the members the tag does not name keep
what they had.

- `AutoData`, its constructors, `index`, `pushBack`, `copy`, `assign`, `eq`: translated from
  `auto_data.h`
- `Value`: what an `auto_data` stands for, a tree of scalars, maps and lists
- `AutoData.meaning`: the members the tag names

A `double` is given by its bits.
-/

namespace Sails.Base

open CMemory

/-! ## The class -/

/-- `data_type`. -/
inductive DataType where
  | null
  | string
  | boolean
  | numberInteger
  | numberFloat
  | map
  | list
  deriving DecidableEq, Repr

/-- The bits of a `double`. -/
abbrev Double := UInt64

/-- `data_value`: the members of the union, each as it was written last. For `str` this is the string
that it points to. -/
structure DataValue where
  str : Bytes := []
  boolean : Bool := false
  intVal : Int64 := 0
  fVal : Double := 0
  deriving DecidableEq

/-- `auto_data`. The rows of `map_data` are in the order of their keys. -/
structure AutoData where
  type : DataType
  value : DataValue
  mapData : List (Bytes × AutoData)
  listData : List AutoData

/-- How `std::map` is assigned: the position of the old element that the new element under a key is
assigned to, when it is not copy-constructed. -/
abbrev Reuse := List (Bytes × AutoData) → Bytes → Option Nat

namespace AutoData

/-! ## Constructors -/

/-- `auto_data()`. -/
def null : AutoData := ⟨.null, {}, [], []⟩

/-- `auto_data(const std::string&)`. -/
def ofString (v : Bytes) : AutoData := ⟨.string, { str := v }, [], []⟩

/-- `auto_data(bool)`. -/
def ofBool (v : Bool) : AutoData := ⟨.boolean, { boolean := v }, [], []⟩

/-- `auto_data(int64_t)`, and by conversion those from `int` and `size_t`. -/
def ofInt (v : Int64) : AutoData := ⟨.numberInteger, { intVal := v }, [], []⟩

/-- `auto_data(double)`. -/
def ofDouble (v : Double) : AutoData := ⟨.numberFloat, { fVal := v }, [], []⟩

/-! ## Copies -/

/-- The old element that is assigned to. -/
def reused (reuse : Reuse) (target : AutoData) (key : Bytes) : Option AutoData := do
  let i ← reuse target.mapData key
  let row ← target.mapData[i]?
  return row.2

mutual

/-- `auto_data(const auto_data&)`; the calls are nested at most `fuel` deep. -/
def copy (reuse : Reuse) : Nat → AutoData → Option AutoData
  | 0, _ => none
  | fuel + 1, data =>
    match data.type with
    | .string => some { null with type := .string, value := { str := data.value.str } }
    | .map => do
      let mapData ← data.mapData.foldlM (fun rows item => do
        let d ← copy reuse fuel item.2
        -- `map_data[item.first] = d`
        let new ← assign reuse fuel ((OrderedMap.find rows item.1).getD null) d
        return OrderedMap.set rows item.1 new) []
      return { null with type := .map, mapData := mapData }
    | type => some { null with type := type, value := data.value }

/-- `operator=`, on `target`. -/
def assign (reuse : Reuse) : Nat → AutoData → AutoData → Option AutoData
  | 0, _, _ => none
  | fuel + 1, target, data =>
    match data.type with
    -- a string made of `c_str()`
    | .string => some { target with
        type := .string, value := { target.value with str := text data.value.str } }
    | .map => do
      let mapData ← data.mapData.mapM fun item => do
        let new ← (reused reuse target item.1).elim (copy reuse fuel item.2) fun old =>
          assign reuse fuel old item.2
        return (item.1, new)
      return { target with type := .map, mapData := mapData }
    | type => some { target with type := type, value := data.value }

end

/-! ## Access -/

/-- `operator[](key)`: the object with a row for the key, and the value in it. -/
def index (x : AutoData) (key : Bytes) : AutoData × AutoData :=
  match OrderedMap.find x.mapData key with
  | none => ({ x with type := .map, mapData := OrderedMap.set x.mapData key null }, null)
  | some v => ({ x with type := .map }, v)

/-- What is written through the reference that `operator[](key)` returns. -/
def store (x : AutoData) (key : Bytes) (new : AutoData) : AutoData :=
  { (x.index key).1 with mapData := OrderedMap.set (x.index key).1.mapData key new }

/-- The elements of a vector that moves to more memory, or does not: moving copies them. -/
def moveItems (reuse : Reuse) (fuel : Nat) (moves : Bool) (items : List AutoData) :
    Option (List AutoData) :=
  if moves then items.mapM (copy reuse fuel) else some items

/-- `push_back`, with the copy that the vector makes. -/
def pushBack (reuse : Reuse) (fuel : Nat) (moves : Bool) (x data : AutoData) : Option AutoData := do
  let new ← copy reuse fuel data
  let items ← moveItems reuse fuel moves x.listData
  return { x with type := .list, listData := items ++ [new] }

end AutoData

/-! ## Comparison -/

namespace Double

/-- All bits of the exponent set, and some of the fraction. -/
def IsNaN (f : Double) : Prop :=
  f &&& 0x7FF0000000000000 = 0x7FF0000000000000 ∧ f &&& 0x000FFFFFFFFFFFFF ≠ 0

instance (f : Double) : Decidable (IsNaN f) := inferInstanceAs (Decidable (_ ∧ _))

/-- The number that the bits stand for: the two zeros are one number. -/
def number (f : Double) : Double := if f = 0x8000000000000000 then 0 else f

/-- `f == g`. -/
def eq (f g : Double) : Bool := !decide (IsNaN f) && !decide (IsNaN g) && number f == number g

end Double

/-- `operator==`. -/
def AutoData.eq (x data : AutoData) : Bool :=
  if x.type ≠ data.type then false
  else
    match x.type with
    | .string => x.value.str == data.value.str
    | .boolean => x.value.boolean == data.value.boolean
    | .numberInteger => x.value.intVal == data.value.intVal
    | .numberFloat => Double.eq x.value.fVal data.value.fVal
    | .map => false
    | _ => false

/-! ## What it stands for -/

/-- A tree of scalars, maps and lists. -/
inductive Value where
  | null
  | string (s : Bytes)
  | boolean (b : Bool)
  | integer (i : Int64)
  | float (f : Double)
  | map (rows : List (Bytes × Value))
  | list (items : List Value)

/-- Induction on a value, with the statement for the values in it. -/
@[induction_eliminator]
theorem Value.ind {motive : Value → Prop} (null : motive .null)
    (string : ∀ s, motive (.string s)) (boolean : ∀ b, motive (.boolean b))
    (integer : ∀ i, motive (.integer i)) (float : ∀ f, motive (.float f))
    (map : ∀ rows, (∀ r ∈ rows, motive r.2) → motive (.map rows))
    (list : ∀ items, (∀ v ∈ items, motive v) → motive (.list items)) (v : Value) : motive v := by
  refine Value.rec (motive_1 := motive) (motive_2 := fun rows => ∀ r ∈ rows, motive r.2)
    (motive_3 := fun items => ∀ v ∈ items, motive v) (motive_4 := fun r => motive r.2)
    null string boolean integer float map list ?_ ?_ ?_ ?_ ?_ v
  · intro r hr
    cases hr
  · intro r rows hr hrows s hs
    rcases List.mem_cons.mp hs with rfl | hs
    · exact hr
    · exact hrows s hs
  · intro v hv
    cases hv
  · intro v items hv hitems w hw
    rcases List.mem_cons.mp hw with rfl | hw
    · exact hv
    · exact hitems w hw
  · intro k v hv
    exact hv

mutual

/-- What an `auto_data` stands for: the members its tag names. -/
def AutoData.meaning : AutoData → Value
  | ⟨.null, _, _, _⟩ => .null
  | ⟨.string, value, _, _⟩ => .string value.str
  | ⟨.boolean, value, _, _⟩ => .boolean value.boolean
  | ⟨.numberInteger, value, _, _⟩ => .integer value.intVal
  | ⟨.numberFloat, value, _, _⟩ => .float value.fVal
  | ⟨.map, _, mapData, _⟩ => .map (meaningRows mapData)
  | ⟨.list, _, _, listData⟩ => .list (meaningItems listData)
termination_by structural x => x

def AutoData.meaningRows : List (Bytes × AutoData) → List (Bytes × Value)
  | [] => []
  | (k, x) :: rows => (k, x.meaning) :: meaningRows rows
termination_by structural x => x

def AutoData.meaningItems : List AutoData → List Value
  | [] => []
  | x :: items => x.meaning :: meaningItems items
termination_by structural x => x

end

namespace AutoData

theorem meaningRows_eq (rows : List (Bytes × AutoData)) :
    meaningRows rows = rows.map fun r => (r.1, r.2.meaning) := by
  induction rows with
  | nil => rfl
  | cons r rows ih => exact congrArg ((r.1, r.2.meaning) :: ·) ih

theorem meaningItems_eq (items : List AutoData) : meaningItems items = items.map meaning := by
  induction items with
  | nil => rfl
  | cons x items ih => exact congrArg (x.meaning :: ·) ih

end AutoData

namespace Value

mutual

/-- How deep the maps are nested. -/
def depth : Value → Nat
  | .map rows => depthRows rows + 1
  | _ => 0
termination_by structural v => v

def depthRows : List (Bytes × Value) → Nat
  | [] => 0
  | (_, v) :: rows => max v.depth (depthRows rows)
termination_by structural rows => rows

end

/-- Every map has its rows in the order of their keys. -/
inductive Ordered : Value → Prop where
  | null : Ordered .null
  | string (s : Bytes) : Ordered (.string s)
  | boolean (b : Bool) : Ordered (.boolean b)
  | integer (i : Int64) : Ordered (.integer i)
  | float (f : Double) : Ordered (.float f)
  | map {rows : List (Bytes × Value)} (hsorted : OrderedMap.Sorted rows)
      (h : ∀ r ∈ rows, Ordered r.2) : Ordered (.map rows)
  | list {items : List Value} (h : ∀ v ∈ items, Ordered v) : Ordered (.list items)

end Value

end Sails.Base
