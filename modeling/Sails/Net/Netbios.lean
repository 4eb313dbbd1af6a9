import Sails.Base.UrlCoding

/-!
# `NetbiosQuery` (`net/netbios.cc`)

The answer to a name query, as `handle_ans` takes it apart:

- `findGroup`, `findFileServer`: the two searches of the name table
- `handleNames`: what is done with an answer that has the identification of the query
- `firstGroup`, `firstFileServer`: the searches as functions of the datagram
- `handleAns_memory`, `handleNames_memory`: the tests a datagram goes through before anything of it
  is used; `handleAns_eq`, `handleNames_eq` for a datagram that ends with its memory

A pointer into the datagram is an offset, so that reading in front of or behind what was received is
a fault. What `snprintf` does with a NULL for `%s` is the library's affair and a parameter here.
-/

namespace Sails.Net

open TransitionRun (Fault)
open CMemory
open Sails.Base (byteAt byteAt_of_le)

/-- `NetbiosQueryAns`. -/
structure NetbiosQueryAns where
  ip : CharArray 20
  name : CharArray 15
  group : CharArray 15
  unitId : CharArray 6
  deriving DecidableEq

/-! ## The layout of an answer -/

/-- `NETBIOS_HDR_LEN`. -/
def netbiosHdrLen : Nat := 12

/-- `NETBIOS_ANSWER_LEN`. -/
def netbiosAnswerLen : Nat := 45

/-- The offset of `netbios_number`, the last byte of the answer header. -/
def netbiosNumber : Nat := netbiosHdrLen + 44

/-- `netbios_data`: the name table. -/
def netbiosData : Nat := netbiosHdrLen + netbiosAnswerLen

/-- `NETBIOS_FILESERVER`. -/
def netbiosFileserver : UInt8 := 0x20

/-- `NETBIOS_NAME_FLAG_GROUP`. -/
def netbiosNameFlagGroup : UInt16 := (1 : UInt16) <<< 15

/-- The two bytes of `htons(n)` in memory. -/
def htons (n : UInt16) : Bytes := [(n >>> 8).toUInt8, n.toUInt8]

/-! ## `handle_ans` -/

/-- `(high << 8) | low`, where a `char` is signed and becomes an `int` first. -/
def flagsOf (high low : UInt8) : UInt16 :=
  ((high.toInt8.toInt32 <<< (8 : Int32)) ||| low.toInt8.toInt32).toUInt32.toUInt16

/-- `current_flags` of the entry at `currentName`. -/
def currentFlags (buffer : Bytes) (currentName : Nat) : Except Fault UInt16 := do
  let high ← byteAt buffer (currentName + 16)
  let low ← byteAt buffer (currentName + 17)
  return flagsOf high low

/-- The first group from `name_idx` on, with the entries left to look at; there are at most 255, so
that the counter of one byte does not wrap around. -/
def findGroup (buffer : Bytes) (nameIdx : Nat) : Nat → Except Fault (Option Nat)
  | 0 => .ok none
  | left + 1 => do
    let flags ← currentFlags buffer (netbiosData + nameIdx * 18)
    if flags &&& netbiosNameFlagGroup ≠ 0 then return some (netbiosData + nameIdx * 18)
    else findGroup buffer (nameIdx + 1) left

/-- The first file server from `name_idx` on, with the entries left to look at. -/
def findFileServer (buffer : Bytes) (nameIdx : Nat) : Nat → Except Fault (Option Nat)
  | 0 => .ok none
  | left + 1 => do
    let type ← byteAt buffer (netbiosData + nameIdx * 18 + 15)
    let flags ← currentFlags buffer (netbiosData + nameIdx * 18)
    if flags &&& netbiosNameFlagGroup ≠ 0 then findFileServer buffer (nameIdx + 1) left
    else if type = netbiosFileserver then return some (netbiosData + nameIdx * 18)
    else findFileServer buffer (nameIdx + 1) left

/-- The text `%s` prints for a pointer; `none` is NULL. -/
def printed (nullText : Except Fault Bytes) (buffer : Bytes) : Option Nat → Except Fault Bytes
  | some p => stringAt buffer p
  | none => nullText

/-- The names in `ret`, if there is a file server. -/
def printNames (nullText : Except Fault Bytes) (buffer : Bytes) (group : Option Nat)
    (ret : NetbiosQueryAns) : Option Nat → Except Fault NetbiosQueryAns
  | none => .ok ret
  | some name => do
    let nameText ← printed nullText buffer (some name)
    let retName ← ret.name.snprintf nameText
    let groupText ← printed nullText buffer group
    let retGroup ← ret.group.snprintf groupText
    return { ret with name := retName, group := retGroup }

/-- `ret->unitId[i] = unitId[i]`, from `i` on. -/
def copyUnitId (buffer : Bytes) (unitId i : Nat) (retId : CharArray 6) :
    Nat → Except Fault (CharArray 6)
  | 0 => .ok retId
  | left + 1 => do
    let b ← byteAt buffer (unitId + i)
    let retId ← retId.store i [b]
    copyUnitId buffer unitId (i + 1) retId left

/-- The answer to the query: the value returned and `*ret`. -/
def handleNames (nullText : Except Fault Bytes) (buffer : Bytes) (len : Int)
    (ret : NetbiosQueryAns) : Except Fault (Int × NetbiosQueryAns) := do
  let nameCount ← byteAt buffer netbiosNumber
  if len < netbiosData + 18 * nameCount.toNat then return (-1, ret)
  else do
    let group ← findGroup buffer 0 nameCount.toNat
    let name ← findFileServer buffer 0 nameCount.toNat
    let ret ← printNames nullText buffer group ret name
    let unitId ← copyUnitId buffer (netbiosData + nameCount.toNat * 18) 0 ret.unitId 6
    return (0, { ret with unitId := unitId })

/-- `NetbiosQuery::handle_ans(buffer, len, ret)`: the value returned and `*ret`. -/
def handleAns (nullText : Except Fault Bytes) (transationID : UInt16) (buffer : Bytes) (len : Int)
    (ret : NetbiosQueryAns) : Except Fault (Int × NetbiosQueryAns) := do
  if len ≤ netbiosHdrLen + netbiosAnswerLen then return (-1, ret)
  else do
    let high ← byteAt buffer 0
    let low ← byteAt buffer 1
    if [high, low] = htons transationID then handleNames nullText buffer len ret
    else return (0, ret)

/-! ## The name table as data -/

/-- The byte at an offset. -/
def byteOf (buffer : Bytes) (i : Nat) : UInt8 := buffer.getD i 0

/-- The number of names an answer announces. -/
def nameCount (buffer : Bytes) : Nat := (byteOf buffer netbiosNumber).toNat

/-- The entry is taken for a group: either byte of its flags is negative as a `char`. -/
def IsGroup (buffer : Bytes) (p : Nat) : Prop :=
  128 ≤ byteOf buffer (p + 16) ∨ 128 ≤ byteOf buffer (p + 17)

instance (buffer : Bytes) (p : Nat) : Decidable (IsGroup buffer p) :=
  inferInstanceAs (Decidable (_ ∨ _))

/-- The entry is taken for a file server. -/
def IsFileServer (buffer : Bytes) (p : Nat) : Prop :=
  ¬IsGroup buffer p ∧ byteOf buffer (p + 15) = netbiosFileserver

instance (buffer : Bytes) (p : Nat) : Decidable (IsFileServer buffer p) :=
  inferInstanceAs (Decidable (_ ∧ _))

/-- Where the entries of the name table start. -/
def entries (first count : Nat) : List Nat :=
  (List.range' first count).map fun i => netbiosData + i * 18

/-- The first group of an answer. -/
def firstGroup (buffer : Bytes) : Option Nat :=
  (entries 0 (nameCount buffer)).find? fun p => IsGroup buffer p

/-- The first file server of an answer. -/
def firstFileServer (buffer : Bytes) : Option Nat :=
  (entries 0 (nameCount buffer)).find? fun p => IsFileServer buffer p

theorem entries_succ (first count : Nat) :
    entries first (count + 1) = (netbiosData + first * 18) :: entries (first + 1) count := by
  rw [entries, List.range'_succ, List.map_cons]
  rfl

theorem byteAt_of_lt {buffer : Bytes} {i : Nat} (h : i < buffer.length) :
    byteAt buffer i = .ok (byteOf buffer i) := Sails.Base.byteAt_of_lt h

/-! ## The group flag -/

/-- Bit 15 of either part of the flags is the sign of its byte. -/
private theorem flag_bits : ∀ n < 256,
    (n.toUInt8.toInt8.toInt32 <<< (8 : Int32)).toUInt32.toUInt16.toBitVec.getLsbD 15 =
        decide (128 ≤ n.toUInt8) ∧
      n.toUInt8.toInt8.toInt32.toUInt32.toUInt16.toBitVec.getLsbD 15 = decide (128 ≤ n.toUInt8) := by
  decide +kernel

theorem and_groupFlag_ne_zero_iff (flags : UInt16) :
    flags &&& netbiosNameFlagGroup ≠ 0 ↔ flags.toBitVec.getLsbD 15 = true := by
  have hflag : netbiosNameFlagGroup.toBitVec = BitVec.twoPow 16 15 := by decide
  rw [Ne, ← UInt16.toBitVec_inj, UInt16.toBitVec_and, hflag, BitVec.and_twoPow]
  cases flags.toBitVec.getLsbD 15 <;> simp

/-- **The sign of the low byte counts as the group flag**, as well as that of the high byte. -/
theorem flagsOf_group_iff (high low : UInt8) :
    flagsOf high low &&& netbiosNameFlagGroup ≠ 0 ↔ 128 ≤ high ∨ 128 ≤ low := by
  have hhigh := (flag_bits high.toNat high.toNat_lt).1
  have hlow := (flag_bits low.toNat low.toNat_lt).2
  have hhigh' : high.toNat.toUInt8 = high := UInt8.ofNat_toNat
  have hlow' : low.toNat.toUInt8 = low := UInt8.ofNat_toNat
  rw [hhigh'] at hhigh
  rw [hlow'] at hlow
  have hor (x y : Int32) : (x ||| y).toUInt32.toUInt16.toBitVec.getLsbD 15 =
      (x.toUInt32.toUInt16.toBitVec.getLsbD 15 || y.toUInt32.toUInt16.toBitVec.getLsbD 15) := by
    simp
  rw [and_groupFlag_ne_zero_iff, flagsOf, hor, hhigh, hlow, Bool.or_eq_true, decide_eq_true_iff,
    decide_eq_true_iff]

/-! ## The searches -/

section Searches

variable {buffer : Bytes} {first left : Nat}

theorem currentFlags_eq {p : Nat} (h : p + 18 ≤ buffer.length) :
    ∃ flags, currentFlags buffer p = .ok flags ∧
      (flags &&& netbiosNameFlagGroup ≠ 0 ↔ IsGroup buffer p) := by
  have hhigh : byteAt buffer (p + 16) = .ok (byteOf buffer (p + 16)) := byteAt_of_lt (by omega)
  have hlow : byteAt buffer (p + 17) = .ok (byteOf buffer (p + 17)) := byteAt_of_lt (by omega)
  refine ⟨_, ?_, flagsOf_group_iff (byteOf buffer (p + 16)) (byteOf buffer (p + 17))⟩
  simp only [currentFlags, hhigh, hlow, bind, Except.bind, pure, Except.pure]

/-- Inside the datagram the first search finds the first group. -/
theorem findGroup_eq (h : netbiosData + (first + left) * 18 ≤ buffer.length) :
    findGroup buffer first left = .ok ((entries first left).find? fun p => IsGroup buffer p) := by
  induction left generalizing first with
  | zero => rfl
  | succ left ih =>
    have hentry : netbiosData + first * 18 + 18 ≤ buffer.length := by omega
    obtain ⟨flags, hflags, hiff⟩ := currentFlags_eq hentry
    rw [findGroup, hflags, entries_succ]
    simp only [bind, Except.bind, hiff]
    by_cases hgroup : IsGroup buffer (netbiosData + first * 18)
    · rw [if_pos hgroup, List.find?_cons_of_pos (by simpa using hgroup)]
      rfl
    · rw [if_neg hgroup, List.find?_cons_of_neg (by simpa using hgroup), ih (by omega)]

/-- Inside the datagram the second search finds the first file server. -/
theorem findFileServer_eq (h : netbiosData + (first + left) * 18 ≤ buffer.length) :
    findFileServer buffer first left =
      .ok ((entries first left).find? fun p => IsFileServer buffer p) := by
  induction left generalizing first with
  | zero => rfl
  | succ left ih =>
    have hentry : netbiosData + first * 18 + 18 ≤ buffer.length := by omega
    obtain ⟨flags, hflags, hiff⟩ := currentFlags_eq hentry
    have htype : netbiosData + first * 18 + 15 < buffer.length := by omega
    rw [findFileServer, byteAt_of_lt htype, hflags, entries_succ]
    simp only [bind, Except.bind, hiff]
    by_cases hserver : IsFileServer buffer (netbiosData + first * 18)
    · rw [if_neg hserver.1, if_pos hserver.2, List.find?_cons_of_pos (by simpa using hserver)]
      rfl
    · rw [List.find?_cons_of_neg (by simpa using hserver), ih (by omega)]
      by_cases hgroup : IsGroup buffer (netbiosData + first * 18)
      · exact if_pos hgroup
      · rw [if_neg hgroup, if_neg fun hfile => hserver ⟨hgroup, hfile⟩]

end Searches

/-! ## What is written -/

section Writing

variable {buffer : Bytes}

/-- The unit id is copied if all of it was received. -/
theorem copyUnitId_eq {unitId i left : Nat} (retId : CharArray 6) (hi : i + left ≤ 6)
    (h : unitId + i + left ≤ buffer.length) :
    ∃ retId', copyUnitId buffer unitId i retId left = .ok retId' ∧
      retId'.bytes = splice retId.bytes i ((buffer.drop (unitId + i)).take left) := by
  induction left generalizing i retId with
  | zero =>
    refine ⟨retId, rfl, ?_⟩
    rw [List.take_zero, splice_nil]
  | succ left ih =>
    have hlt : unitId + i < buffer.length := by omega
    obtain ⟨retId₁, hstore, hbytes⟩ := CharArray.store_eq_ok retId i [byteOf buffer (unitId + i)]
      (by rw [List.length_singleton]; omega)
    obtain ⟨retId₂, hrest, hbytes₂⟩ := ih (i := i + 1) retId₁ (by omega) (by omega)
    refine ⟨retId₂, ?_, ?_⟩
    · rw [copyUnitId, byteAt_of_lt hlt]
      simp only [bind, Except.bind, hstore, hrest]
    -- the first byte and the bytes behind it
    · have hhead : (buffer.drop (unitId + i)).take (left + 1) =
          [byteOf buffer (unitId + i)] ++ (buffer.drop (unitId + i + 1)).take left := by
        rw [List.drop_eq_getElem_cons hlt, List.take_succ_cons, byteOf,
          List.getD_eq_getElem?_getD, List.getElem?_eq_getElem hlt]
        rfl
      have hlen : i + [byteOf buffer (unitId + i)].length ≤ retId.bytes.length := by
        rw [List.length_singleton, retId.length_bytes]
        omega
      rw [hbytes₂, hbytes, hhead, ← splice_splice hlen]
      rfl

/-- With a byte of the unit id missing the loop reads behind the datagram. -/
theorem copyUnitId_short {unitId i left : Nat} (retId : CharArray 6) (hi : i + left ≤ 6)
    (h : buffer.length < unitId + i + left) (hstart : unitId + i ≤ buffer.length) :
    copyUnitId buffer unitId i retId left = .error .outOfBounds := by
  induction left generalizing i retId with
  | zero => omega
  | succ left ih =>
    by_cases hlt : unitId + i < buffer.length
    · obtain ⟨retId₁, hstore, -⟩ := CharArray.store_eq_ok retId i [byteOf buffer (unitId + i)]
        (by rw [List.length_singleton]; omega)
      rw [copyUnitId, byteAt_of_lt hlt]
      simp only [bind, Except.bind, hstore]
      exact ih (i := i + 1) retId₁ (by omega) (by omega) (by omega)
    · rw [copyUnitId, byteAt_of_le (Nat.le_of_not_lt hlt)]
      rfl

end Writing

/-! ## The tests -/

section Tests

variable {nullText : Except Fault Bytes} {transationID : UInt16} {buffer : Bytes}
  {ret : NetbiosQueryAns}

theorem take_two (h : 2 ≤ buffer.length) : buffer.take 2 = [byteOf buffer 0, byteOf buffer 1] := by
  match buffer, h with
  | a :: b :: _, _ => rfl

/-- **The tests of the header**: its length, then the identification in network order. The datagram
is the front of the memory it was received into. -/
theorem handleAns_memory {memory : Bytes} {len : Nat} (hlen : len ≤ memory.length) :
    handleAns nullText transationID memory len ret =
      if len ≤ netbiosData then .ok (-1, ret)
      else if memory.take 2 = htons transationID then handleNames nullText memory len ret
      else .ok (0, ret) := by
  by_cases hshort : len ≤ netbiosData
  · rw [if_pos hshort, handleAns, if_pos (by exact_mod_cast hshort)]
    rfl
  · have hdata : netbiosData = 57 := rfl
    have hhigh : byteAt memory 0 = .ok (byteOf memory 0) := byteAt_of_lt (by omega)
    have hlow : byteAt memory 1 = .ok (byteOf memory 1) := byteAt_of_lt (by omega)
    rw [if_neg hshort, handleAns, if_neg (by exact_mod_cast hshort), hhigh, hlow,
      take_two (by omega)]
    rfl

/-- **The test of the name table**: an answer to the query, with the searches done. -/
theorem handleNames_memory {memory : Bytes} {len : Nat} (hdata : netbiosData < len)
    (hlen : len ≤ memory.length) :
    handleNames nullText memory len ret =
      if len < netbiosData + 18 * nameCount memory then .ok (-1, ret)
      else do
        let ret' ← printNames nullText memory (firstGroup memory) ret (firstFileServer memory)
        let unitId ← copyUnitId memory (netbiosData + nameCount memory * 18) 0 ret'.unitId 6
        return (0, { ret' with unitId := unitId }) := by
  have hnumber : netbiosNumber < netbiosData := by decide
  have hcount : byteAt memory netbiosNumber = .ok (byteOf memory netbiosNumber) :=
    byteAt_of_lt (hnumber.trans (hdata.trans_le hlen))
  rw [handleNames, hcount]
  simp only [bind, Except.bind]
  by_cases hshort : len < netbiosData + 18 * nameCount memory
  · rw [if_pos hshort, if_pos (by exact_mod_cast hshort)]
    rfl
  · have hnames : netbiosData + (0 + nameCount memory) * 18 ≤ memory.length := by omega
    have hgroup : findGroup memory 0 (byteOf memory netbiosNumber).toNat =
        .ok (firstGroup memory) := findGroup_eq hnames
    have hserver : findFileServer memory 0 (byteOf memory netbiosNumber).toNat =
        .ok (firstFileServer memory) := findFileServer_eq hnames
    rw [if_neg hshort, if_neg (by exact_mod_cast hshort), hgroup, hserver]
    rfl

/-- The tests of the header for a datagram that ends with its memory. -/
theorem handleAns_eq (nullText : Except Fault Bytes) (transationID : UInt16) (buffer : Bytes)
    (ret : NetbiosQueryAns) :
    handleAns nullText transationID buffer buffer.length ret =
      if buffer.length ≤ netbiosData then .ok (-1, ret)
      else if buffer.take 2 = htons transationID then
        handleNames nullText buffer buffer.length ret
      else .ok (0, ret) :=
  handleAns_memory (Nat.le_refl _)

/-- The test of the name table for a datagram that ends with its memory. -/
theorem handleNames_eq (hlen : netbiosData < buffer.length) :
    handleNames nullText buffer buffer.length ret =
      if buffer.length < netbiosData + 18 * nameCount buffer then .ok (-1, ret)
      else do
        let ret' ← printNames nullText buffer (firstGroup buffer) ret (firstFileServer buffer)
        let unitId ← copyUnitId buffer (netbiosData + nameCount buffer * 18) 0 ret'.unitId 6
        return (0, { ret' with unitId := unitId }) :=
  handleNames_memory hlen (Nat.le_refl _)

end Tests

end Sails.Net
