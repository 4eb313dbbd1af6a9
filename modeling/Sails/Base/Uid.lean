import Mathlib.Data.List.Basic
import Mathlib.Algebra.Group.Nat.Defs

/-!
# `GetUID` (`base/util.cc`)

- `getUID`: one call, with the counter of its process before and after it
- `uids`: the values of a process
- `nodeOf`: the node a value is taken to come from
- `uids_getElem?`: the fields of the value of each call
- `nodesApart_iff`: how many calls two nodes can make without getting into each other's values

The counter has 15 bits of the value, and it starts again at 60000 only.
-/

namespace Sails.Base

/-- What `gettimeofday` fills in. -/
structure Timeval where
  tvSec : Int64
  tvUsec : Int64

/-- `t.tv_sec*1000+t.tv_usec/1000`. -/
def Timeval.timeNum (t : Timeval) : UInt64 := (t.tvSec * 1000 + t.tvUsec / 1000).toUInt64

/-- The value for a time, a node and a counter. -/
def uidValue (timeNum : UInt64) (node i : Int32) : UInt64 :=
  (timeNum <<< 20) + (node <<< 15).toInt64.toUInt64 + i.toInt64.toUInt64

/-- The counter of the next call. -/
def nextCounter (i : Int32) : Int32 := if i + 1 > 60000 then 0 else i + 1

/-- `GetUID(node)` at a time: the value returned, and the counter afterwards. -/
def getUID (node i : Int32) (t : Timeval) : UInt64 × Int32 :=
  (uidValue t.timeNum node (nextCounter i), nextCounter i)

/-- The values of calls made at these times, from the counter `i` on. -/
def getUIDs (node i : Int32) : List Timeval → List UInt64
  | [] => []
  | t :: ts => (getUID node i t).1 :: getUIDs node (getUID node i t).2 ts

/-- The values of a process, whose counter begins with 0. -/
def uids (node : Int32) (ts : List Timeval) : List UInt64 := getUIDs node 0 ts

/-- The node of a value: `(value >> 15) & 31`. -/
def nodeOf (value : UInt64) : UInt64 := (value >>> 15) &&& 31

/-- **Two nodes never share a value**, and every value tells its node. -/
def NodesApart (a b : Int32) (ta tb : List Timeval) : Prop :=
  (∀ v ∈ uids a ta, ∀ w ∈ uids b tb, v ≠ w) ∧
    (∀ v ∈ uids a ta, nodeOf v = a.toInt64.toUInt64) ∧
    ∀ w ∈ uids b tb, nodeOf w = b.toInt64.toUInt64

/-! ## The counter -/

/-- The counter of the `k`-th call, counted from 0. -/
def counterAt (k : Nat) : Nat := (k + 1) % 60001

theorem nextCounter_ofNat {c : Nat} (hc : c ≤ 60000) :
    nextCounter (Int32.ofNat c) = Int32.ofNat ((c + 1) % 60001) := by
  have hsucc : Int32.ofNat c + 1 = Int32.ofNat (c + 1) := (Int32.ofNat_add c 1).symm
  have hval : (Int32.ofNat (c + 1)).toInt = ((c + 1 : Nat) : Int) :=
    Int32.toInt_ofNat_of_lt (by omega)
  have hgt : Int32.ofNat (c + 1) > 60000 ↔ c = 60000 := by
    rw [gt_iff_lt, Int32.lt_iff_toInt_lt, hval]
    have hlimit : (60000 : Int32).toInt = 60000 := by decide
    omega
  rw [nextCounter, hsucc]
  by_cases hlast : c = 60000
  · rw [if_pos (hgt.mpr hlast), hlast]
    rfl
  · rw [if_neg (mt hgt.mp hlast), Nat.mod_eq_of_lt (by omega)]

/-- The values one after the other, from a counter on. -/
theorem getUIDs_getElem? (node : Int32) {c : Nat} (hc : c ≤ 60000) (ts : List Timeval) (k : Nat) :
    (getUIDs node (Int32.ofNat c) ts)[k]? =
      ts[k]?.map fun t => uidValue t.timeNum node (Int32.ofNat ((c + k + 1) % 60001)) := by
  induction ts generalizing c k with
  | nil => rfl
  | cons t ts ih =>
    simp only [getUIDs, getUID, nextCounter_ofNat hc]
    cases k with
    | zero => rfl
    | succ k =>
      have hnext : (c + 1) % 60001 ≤ 60000 := by omega
      have hcount : ((c + 1) % 60001 + k + 1) % 60001 = (c + (k + 1) + 1) % 60001 := by omega
      rw [List.getElem?_cons_succ, ih hnext, hcount]
      rfl

/-- **The value of each call**, with the counter it gets. -/
theorem uids_getElem? (node : Int32) (ts : List Timeval) (k : Nat) :
    (uids node ts)[k]? =
      ts[k]?.map fun t => uidValue t.timeNum node (Int32.ofNat (counterAt k)) := by
  have h := getUIDs_getElem? node (Nat.zero_le 60000) ts k
  rw [Nat.zero_add] at h
  exact h

theorem mem_uids {node : Int32} {ts : List Timeval} {v : UInt64} :
    v ∈ uids node ts ↔ ∃ k t, ts[k]? = some t ∧
      v = uidValue t.timeNum node (Int32.ofNat (counterAt k)) := by
  constructor
  · intro hv
    obtain ⟨k, hk⟩ := List.mem_iff_getElem?.mp hv
    rw [uids_getElem?, Option.map_eq_some_iff] at hk
    obtain ⟨t, ht, hval⟩ := hk
    exact ⟨k, t, ht, hval.symm⟩
  · rintro ⟨k, t, ht, rfl⟩
    refine List.mem_iff_getElem?.mpr ⟨k, ?_⟩
    rw [uids_getElem?, ht]
    rfl

/-! ## The fields of a value -/

section Fields

variable {node : Int32} {c : Nat}

/-- A node as a number. -/
theorem exists_node (hnode : 0 ≤ node ∧ node ≤ 31) : ∃ n < 32, node = Int32.ofNat n := by
  have hlow := Int32.le_iff_toInt_le.mp hnode.1
  have hhigh := Int32.le_iff_toInt_le.mp hnode.2
  have hzero : (0 : Int32).toInt = 0 := by decide
  have hlimit : (31 : Int32).toInt = 31 := by decide
  refine ⟨node.toInt.toNat, by omega, ?_⟩
  rw [← Int32.toInt_inj, Int32.toInt_ofNat_of_lt (by omega)]
  omega

theorem toNat_ofNat_widened (hc : c ≤ 60000) :
    (Int32.ofNat c).toInt64.toUInt64.toNat = c := by
  have hmax : Int32.maxValue.toInt = 2147483647 := by decide
  rw [Int32.toInt64_ofNat' (by omega), Int64.toUInt64_ofNat', UInt64.toNat_ofNat']
  exact Nat.mod_eq_of_lt (by omega)

theorem node_shifted : ∀ n < 32, (Int32.ofNat n <<< 15).toInt64.toUInt64.toNat = n * 2 ^ 15 := by
  decide

theorem toNat_uidValue (timeNum : UInt64) {n : Nat} (hn : n < 32) (hc : c ≤ 60000) :
    (uidValue timeNum (Int32.ofNat n) (Int32.ofNat c)).toNat =
      (timeNum.toNat * 2 ^ 20 + n * 2 ^ 15 + c) % 2 ^ 64 := by
  have hshift : (timeNum <<< 20).toNat = timeNum.toNat * 2 ^ 20 % 2 ^ 64 := by
    rw [UInt64.toNat_shiftLeft, Nat.shiftLeft_eq]
    rfl
  rw [uidValue, UInt64.toNat_add, UInt64.toNat_add, hshift, node_shifted n hn,
    toNat_ofNat_widened hc]
  omega

/-- **The carry**: what the counter has beyond its 15 bits is added to the node. -/
theorem toNat_nodeOf (timeNum : UInt64) {n : Nat} (hn : n < 32) (hc : c ≤ 60000) :
    (nodeOf (uidValue timeNum (Int32.ofNat n) (Int32.ofNat c))).toNat = (n + c / 2 ^ 15) % 32 := by
  have hmask (x : Nat) : x &&& 31 = x % 32 := Nat.and_two_pow_sub_one_eq_mod x 5
  have h31 : (31 : UInt64).toNat = 31 := rfl
  have h15 : (15 : UInt64).toNat % 64 = 15 := rfl
  rw [nodeOf, UInt64.toNat_and, UInt64.toNat_shiftRight, toNat_uidValue timeNum hn hc, h31, hmask,
    h15, Nat.shiftRight_eq_div_pow]
  omega

/-- The node is recovered exactly while the counter keeps to its bits. -/
theorem nodeOf_uidValue_iff (hnode : 0 ≤ node ∧ node ≤ 31) (timeNum : UInt64) (hc : c ≤ 60000) :
    nodeOf (uidValue timeNum node (Int32.ofNat c)) = node.toInt64.toUInt64 ↔ c < 2 ^ 15 := by
  obtain ⟨n, hn, rfl⟩ := exists_node hnode
  rw [← UInt64.toNat_inj, toNat_nodeOf timeNum hn hc, toNat_ofNat_widened (by omega)]
  omega

/-- Different nodes are different after the conversion. -/
theorem widened_inj {a b : Int32} (h : a.toInt64.toUInt64 = b.toInt64.toUInt64) : a = b := by
  have hsigned : a.toInt64 = b.toInt64 := by
    have hback := congrArg UInt64.toInt64 h
    rwa [Int64.toInt64_toUInt64, Int64.toInt64_toUInt64] at hback
  rw [← Int32.toInt_inj, ← Int32.toInt_toInt64, hsigned, Int32.toInt_toInt64]

end Fields

/-! ## Whole processes -/

section Processes

variable {node : Int32} {ts : List Timeval}

theorem counterAt_le (k : Nat) : counterAt k ≤ 60000 := by
  unfold counterAt
  omega

/-- **Every value tells its node** exactly if the process makes fewer calls than the counter has
values in 15 bits, whatever the times are. -/
theorem nodes_recovered_iff (hnode : 0 ≤ node ∧ node ≤ 31) :
    (∀ v ∈ uids node ts, nodeOf v = node.toInt64.toUInt64) ↔ ts.length < 2 ^ 15 := by
  constructor
  · intro hall
    by_contra hlong
    -- the call that gets the counter 2^15
    have hk : 2 ^ 15 - 1 < ts.length := by omega
    have hnodeOf := hall _ (mem_uids.mpr
      ⟨2 ^ 15 - 1, ts[2 ^ 15 - 1], List.getElem?_eq_getElem hk, rfl⟩)
    have hcounter := (nodeOf_uidValue_iff hnode _ (counterAt_le (2 ^ 15 - 1))).mp hnodeOf
    exact absurd hcounter (by decide)
  · intro hshort v hv
    obtain ⟨k, t, ht, rfl⟩ := mem_uids.mp hv
    have hk : k < ts.length := (List.getElem?_eq_some_iff.mp ht).1
    refine (nodeOf_uidValue_iff hnode t.timeNum (counterAt_le k)).mpr ?_
    unfold counterAt
    omega

/-- **When two nodes are apart**: exactly if each of them makes fewer than 2^15 calls. -/
theorem nodesApart_iff {a b : Int32} (ha : 0 ≤ a ∧ a ≤ 31) (hb : 0 ≤ b ∧ b ≤ 31) (hab : a ≠ b)
    (ta tb : List Timeval) :
    NodesApart a b ta tb ↔ ta.length < 2 ^ 15 ∧ tb.length < 2 ^ 15 := by
  rw [NodesApart, nodes_recovered_iff ha, nodes_recovered_iff hb]
  refine ⟨fun h => h.2, fun hshort => ⟨fun v hv w hw heq => hab ?_, hshort⟩⟩
  have hv' := (nodes_recovered_iff ha).mpr hshort.1 v hv
  have hw' := (nodes_recovered_iff hb).mpr hshort.2 w hw
  exact widened_inj (hv'.symm.trans (heq ▸ hw'))

/-- One call on each of two nodes in the same millisecond. -/
theorem nodesApart_one : NodesApart 0 1 [⟨1, 0⟩] [⟨1, 0⟩] :=
  (nodesApart_iff (by decide) (by decide) (by decide) _ _).mpr (by decide)

/-- With 32769 calls in one millisecond node 0 gets to the value of the first call of node 1. -/
theorem nodesApart_collision : ¬NodesApart 0 1 (List.replicate 32769 ⟨1, 0⟩) [⟨1, 0⟩] := by
  rintro ⟨hdiffer, -, -⟩
  refine hdiffer _ (mem_uids.mpr ⟨32768, ⟨1, 0⟩, ?_, rfl⟩) _ (mem_uids.mpr ⟨0, ⟨1, 0⟩, rfl, rfl⟩) ?_
  · exact List.getElem?_replicate_of_lt (by decide)
  · decide

end Processes

end Sails.Base
