import Sails.Library.PackedId
import Sails.Library.Run
import Mathlib.Data.List.Nodup

/-!
# `base::ConstantPtrList`

A table of pointers under ids: the low 24 bits of an id are a slot, the others the list's magic,
which may be zero. `ρ` stands for the pointers other than `NULL`.

- `init`, `getUniqId`, `get`, `add`, `del`, `size`, `clear`: translated from `constant_ptr_list.h`;
  an `assert` that fails and an access outside the array are faults
-/

namespace Sails.Base

open TransitionRun (Fault)

/-! ## Ids -/

/-- `uid & (0xFFFFFFFF << 24)`. -/
def ptrMagicOf (uid : UInt32) : UInt32 := uid &&& 0xFF000000

/-- `uid & (0xFFFFFFFF >> 8)`. -/
def ptrSlotOf (uid : UInt32) : Nat := (uid &&& 0xFFFFFF).toNat

/-- The masks of an id. -/
def ptrMasks : IdMasks where
  high := 0xFF000000
  low := 0xFFFFFF
  bits := 24
  split := by decide
  disjoint := by decide
  low_eq := by decide
  bits_le := by decide

/-! ## The list -/

/-- `ConstantPtrList` after `init`; slot 0 is never used. -/
structure ConstantPtrList (ρ : Type*) where
  total : Nat
  free : List Nat
  freeSize : Nat
  vList : List (Option ρ)
  magicNum : UInt32
  length_vList : vList.length = total + 1

namespace ConstantPtrList

variable {ρ : Type*}

/-- The value `default_magic_num` has after `uses` increments. -/
def defaultMagicNum (uses : Nat) : UInt32 := UInt32.ofNat (0x01000000 * (uses + 1))

/-- The magic `init` chooses at time `now`, when `default_magic_num` was used `uses` times before. -/
def chooseMagic (needMagicNum : Bool) (now : Int) (uses : Nat) : UInt32 :=
  if needMagicNum then
    let magicNum := (UInt32.ofInt now <<< 24) &&& (0xFF000000 : UInt32)
    if magicNum = 0 then defaultMagicNum uses else magicNum
  else 0

/-- `init(size, needMagicNum)` on a list that was just constructed. -/
def init (size : Nat) (needMagicNum : Bool) (now : Int) (uses : Nat) : ConstantPtrList ρ where
  total := size
  free := List.range' 1 size
  freeSize := size
  vList := List.replicate (size + 1) none
  magicNum := chooseMagic needMagicNum now uses
  length_vList := List.length_replicate

/-- `vList[slot]`; outside the array there is nothing. -/
def at? (l : ConstantPtrList ρ) (slot : Nat) : Option ρ := l.vList[slot]?.join

/-- `vList[slot] = v`. -/
def store (l : ConstantPtrList ρ) (slot : Nat) (v : Option ρ) : ConstantPtrList ρ :=
  { l with
    vList := l.vList.set slot v
    length_vList := by rw [List.length_set, l.length_vList] }

/-- `getUniqId`. -/
def getUniqId (l : ConstantPtrList ρ) : Except Fault (UInt32 × ConstantPtrList ρ) :=
  match l.free with
  | [] => .error .outOfBounds  -- `front()` of an empty list
  | uid :: rest =>
    if 0 < uid ∧ uid ≤ l.total then
      .ok (l.magicNum ||| UInt32.ofNat uid, { l with free := rest, freeSize := l.freeSize - 1 })
    else .error .assertion

/-- `get`. -/
def get (l : ConstantPtrList ρ) (uid : UInt32) : Except Fault (Option ρ) :=
  if ptrMagicOf uid ≠ l.magicNum then .ok none
  else
    match l.vList[ptrSlotOf uid]? with
    | none => .error .outOfBounds
    | some v => .ok v

/-- `add` of a pointer. -/
def add (l : ConstantPtrList ρ) (t : ρ) (uid : UInt32) : Except Fault (ConstantPtrList ρ) :=
  if ptrMagicOf uid = l.magicNum ∧ 0 < ptrSlotOf uid ∧ ptrSlotOf uid ≤ l.total ∧
      l.at? (ptrSlotOf uid) = none then
    .ok (l.store (ptrSlotOf uid) (some t))
  else .error .assertion

/-- `_del`. -/
def delSlot (l : ConstantPtrList ρ) (slot : Nat) : Except Fault (ConstantPtrList ρ) :=
  if 0 < slot ∧ slot ≤ l.total ∧ l.at? slot ≠ none then
    let l := l.store slot none
    .ok { l with free := l.free ++ [slot], freeSize := l.freeSize + 1 }
  else .error .assertion

/-- `del`. -/
def del (l : ConstantPtrList ρ) (uid : UInt32) : Except Fault (ConstantPtrList ρ) :=
  if ptrMagicOf uid = l.magicNum ∧ 0 < ptrSlotOf uid ∧ ptrSlotOf uid ≤ l.total ∧
      l.at? (ptrSlotOf uid) ≠ none then
    l.delSlot (ptrSlotOf uid)
  else .error .assertion

/-- `size`. -/
def size (l : ConstantPtrList ρ) : Nat := l.total - l.freeSize

/-- The loop of `clear` over `remaining` slots from `i` on, with the pointers it destroys. -/
def clearFrom (l : ConstantPtrList ρ) (i : Nat) : Nat → ConstantPtrList ρ × List ρ
  | 0 => (l, [])
  | remaining + 1 =>
    match l.at? i with
    | none => l.clearFrom (i + 1) remaining
    | some t =>
      let l := l.store i none
      let (l, destroyed) :=
        ConstantPtrList.clearFrom { l with free := l.free ++ [i], freeSize := l.freeSize + 1 } (i + 1)
          remaining
      (l, t :: destroyed)

/-- `clear`, with the pointers passed to `T::destroy`, in order. -/
def clear (l : ConstantPtrList ρ) : ConstantPtrList ρ × List ρ := l.clearFrom 1 l.total

end ConstantPtrList

end Sails.Base
