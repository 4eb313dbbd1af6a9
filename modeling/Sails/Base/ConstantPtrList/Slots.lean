import Sails.Base.ConstantPtrList
import Mathlib.Data.List.Perm.Basic
import Mathlib.Data.List.Range

/-!
# The slots of a pointer list

The slots `1 .. total` are free, reserved (handed out by `getUniqId`, not yet added) or occupied.

- `Consistent`: how the free list, its counter and the array agree with the slots reserved and the
  pointers added
- `getUniqId_spec`, `add_spec`, `del_spec`, `clear_spec`: each function keeps the agreement
- `ptr_list_represents`: what holds in every state of a run
-/

namespace Sails.Base

open TransitionRun

namespace ConstantPtrList

variable {ρ : Type*} {l : ConstantPtrList ρ} {reserved : List Nat} {added : List (Nat × ρ)}
  {uid : UInt32} {slot : Nat} {t : ρ}

/-- The slots that hold a pointer, in order. -/
def occupied (l : ConstantPtrList ρ) : List Nat :=
  (List.range' 1 l.total).filter fun slot => (l.at? slot).isSome

/-- The list agrees with the slots handed out and not added, and with the pointers added. -/
structure Consistent (l : ConstantPtrList ρ) (reserved : List Nat) (added : List (Nat × ρ)) :
    Prop where
  small : l.total < 2 ^ 24
  magic : ptrSlotOf l.magicNum = 0
  partition : (l.free ++ reserved ++ added.map Prod.fst).Perm (List.range' 1 l.total)
  freeSize : l.freeSize = l.free.length
  held : ∀ slot t, l.at? slot = some t ↔ (slot, t) ∈ added

theorem at?_store (hslot : slot ≤ l.total) (v : Option ρ) (s : Nat) :
    (l.store slot v).at? s = if slot = s then v else l.at? s := by
  have hlt : slot < l.vList.length := by
    rw [l.length_vList]
    exact Nat.lt_succ_of_le hslot
  simp only [at?, store, List.getElem?_set, hlt, if_true]
  split <;> rfl

namespace Consistent

variable (h : Consistent l reserved added)
include h

theorem nodup : (l.free ++ reserved ++ added.map Prod.fst).Nodup :=
  h.partition.nodup_iff.mpr (List.nodup_range' ..)

theorem range (hmem : slot ∈ l.free ++ reserved ++ added.map Prod.fst) :
    0 < slot ∧ slot ≤ l.total := by
  have hrange := h.partition.mem_iff.mp hmem
  rw [List.mem_range'_1] at hrange
  omega

theorem at?_reserved (hmem : slot ∈ reserved) : l.at? slot = none := by
  rw [Option.eq_none_iff_forall_ne_some]
  intro t ht
  have hadded := List.mem_map_of_mem (f := Prod.fst) ((h.held slot t).mp ht)
  exact (List.nodup_append.mp h.nodup).2.2 slot (List.mem_append_right _ hmem) slot hadded rfl

theorem perm {reserved' : List Nat} {added' : List (Nat × ρ)} (hr : reserved.Perm reserved')
    (ha : added.Perm added') : Consistent l reserved' added' :=
  { h with
    partition := (((List.Perm.refl _).append hr).append (ha.map _)).symm.trans h.partition
    held := fun slot t => (h.held slot t).trans ha.mem_iff }

end Consistent

theorem init_consistent {size : Nat} (hsize : size < 2 ^ 24) (needMagicNum : Bool) (now : Int)
    (uses : Nat) : Consistent (init size needMagicNum now uses : ConstantPtrList ρ) [] [] where
  small := hsize
  magic := by
    have hmasked : ∀ a : UInt32, ptrSlotOf (a &&& (0xFF000000 : UInt32)) = 0 := by
      intro a
      rw [ptrSlotOf, UInt32.and_assoc]
      simp
    -- a multiple of 2^24 has no low bits, also after wrapping around
    have hdefault : ptrSlotOf (defaultMagicNum uses) = 0 := by
      have hdvd : 2 ^ 24 ∣ 2 ^ 32 := by decide
      calc ptrSlotOf (defaultMagicNum uses)
          = (defaultMagicNum uses).toNat % 2 ^ 24 := ptrMasks.slot_eq _
        _ = 0x01000000 * (uses + 1) % 2 ^ 32 % 2 ^ 24 := by
            rw [defaultMagicNum, UInt32.toNat_ofNat']
        _ = 0x01000000 * (uses + 1) % 2 ^ 24 := Nat.mod_mod_of_dvd _ hdvd
        _ = 0 := Nat.mul_mod_right _ _
    change ptrSlotOf (chooseMagic needMagicNum now uses) = 0
    unfold chooseMagic
    split
    · dsimp only
      split
      · exact hdefault
      · exact hmasked _
    · rfl
  partition := by simp [init]
  freeSize := by simp [init]
  held := by
    intro slot t
    simp only [at?, init, List.getElem?_replicate, List.not_mem_nil, iff_false]
    split <;> simp

/-! ## One call -/

/-- **`getUniqId`** reserves a slot. -/
theorem getUniqId_spec (h : Consistent l reserved added) (hfree : l.free ≠ []) :
    ∃ uid l', l.getUniqId = .ok (uid, l') ∧ ptrMagicOf uid = l.magicNum ∧
      l'.magicNum = l.magicNum ∧ l'.total = l.total ∧
      Consistent l' (ptrSlotOf uid :: reserved) added := by
  cases hcons : l.free with
  | nil => exact absurd hcons hfree
  | cons n rest =>
    have hrange : 0 < n ∧ n ≤ l.total := h.range (by simp [hcons])
    have hsmall : n < 2 ^ 24 := Nat.lt_of_le_of_lt hrange.2 h.small
    have hslot : ptrSlotOf (l.magicNum ||| UInt32.ofNat n) = n := ptrMasks.slot_or h.magic hsmall
    have hmagic : ptrMagicOf (l.magicNum ||| UInt32.ofNat n) = l.magicNum :=
      ptrMasks.magic_or h.magic hsmall
    simp only [getUniqId, hcons, if_pos hrange]
    refine ⟨_, _, rfl, hmagic, rfl, rfl, ?_⟩
    rw [hslot]
    have hsize := h.freeSize
    have hpart := h.partition
    rw [hcons] at hsize hpart
    refine { h with
      partition := (List.Perm.append_right _ List.perm_middle).trans hpart
      freeSize := by simp [hsize] }

/-- **`add`** under a reserved id occupies its slot. -/
theorem add_spec (t : ρ) (hmagic : ptrMagicOf uid = l.magicNum)
    (h : Consistent l (ptrSlotOf uid :: reserved) added) :
    ∃ l', l.add t uid = .ok l' ∧ l'.magicNum = l.magicNum ∧ l'.total = l.total ∧
      Consistent l' reserved ((ptrSlotOf uid, t) :: added) := by
  generalize hslot : ptrSlotOf uid = slot at h ⊢
  have hrange : 0 < slot ∧ slot ≤ l.total := h.range (by simp)
  have hempty : l.at? slot = none := h.at?_reserved (List.mem_cons_self ..)
  have hguard : ptrMagicOf uid = l.magicNum ∧ 0 < slot ∧ slot ≤ l.total ∧ l.at? slot = none :=
    ⟨hmagic, hrange.1, hrange.2, hempty⟩
  simp only [add, hslot, if_pos hguard]
  refine ⟨_, rfl, rfl, rfl, ?_⟩
  refine { h with
    partition := ?_
    held := ?_ }
  -- the slot moves from the reserved ones to the occupied ones
  · refine List.Perm.trans ?_ h.partition
    rw [List.append_assoc, List.append_assoc]
    exact List.Perm.append_left _ List.perm_middle
  · intro s u
    rw [at?_store hrange.2, List.mem_cons, Prod.mk.injEq]
    by_cases hs : slot = s
    · subst hs
      have hnot : (slot, u) ∉ added := fun hmem => by
        rw [(h.held slot u).mpr hmem] at hempty
        exact nomatch hempty
      simp [hnot, eq_comm]
    · rw [if_neg hs, h.held]
      simp [Ne.symm hs]

/-- **`del`** of an added id frees its slot. -/
theorem del_spec (hmagic : ptrMagicOf uid = l.magicNum)
    (h : Consistent l reserved ((ptrSlotOf uid, t) :: added)) :
    ∃ l', l.del uid = .ok l' ∧ l'.magicNum = l.magicNum ∧ l'.total = l.total ∧
      Consistent l' reserved added := by
  generalize hslot : ptrSlotOf uid = slot at h ⊢
  have hrange : 0 < slot ∧ slot ≤ l.total := h.range (by simp)
  have hheld : l.at? slot ≠ none := by
    rw [(h.held slot t).mpr (List.mem_cons_self ..)]
    exact Option.some_ne_none t
  have hnot : ∀ u, (slot, u) ∉ added := by
    intro u hmem
    exact (List.nodup_cons.mp (List.nodup_append.mp h.nodup).2.1).1
      (List.mem_map.mpr ⟨(slot, u), hmem, rfl⟩)
  have hguard : ptrMagicOf uid = l.magicNum ∧ 0 < slot ∧ slot ≤ l.total ∧ l.at? slot ≠ none :=
    ⟨hmagic, hrange.1, hrange.2, hheld⟩
  simp only [del, delSlot, hslot, if_pos hguard, if_pos hguard.2]
  refine ⟨_, rfl, rfl, rfl, h.small, h.magic, ?_, ?_, ?_⟩
  · refine List.Perm.trans ?_ h.partition
    simp only [store, List.append_assoc, List.singleton_append, List.map_cons]
    exact List.Perm.append_left _ List.perm_middle.symm
  · simp [store, h.freeSize]
  · intro s u
    change (l.store slot none).at? s = some u ↔ (s, u) ∈ added
    rw [at?_store hrange.2]
    by_cases hs : slot = s
    · subst hs
      simp [hnot u]
    · rw [if_neg hs, h.held, List.mem_cons, Prod.mk.injEq]
      simp [Ne.symm hs]

/-- **`get`**: the pointer added under the slot, if the magic is the list's. -/
theorem get_spec (h : Consistent l reserved added) (hslot : ptrSlotOf uid ≤ l.total) :
    ∃ v, l.get uid = .ok v ∧
      ∀ t, v = some t ↔ ptrMagicOf uid = l.magicNum ∧ (ptrSlotOf uid, t) ∈ added := by
  unfold get
  by_cases hmagic : ptrMagicOf uid = l.magicNum
  · have hlt : ptrSlotOf uid < l.vList.length := by
      rw [l.length_vList]
      exact Nat.lt_succ_of_le hslot
    rw [if_neg (not_not.mpr hmagic), List.getElem?_eq_getElem hlt]
    refine ⟨_, rfl, fun t => ?_⟩
    rw [← h.held, at?, List.getElem?_eq_getElem hlt]
    simp [hmagic]
  · rw [if_pos hmagic]
    refine ⟨none, rfl, fun t => ?_⟩
    simp [hmagic]

/-! ## `clear` -/

/-- What the loop of `clear` does to the slots from `i` on. -/
structure Cleared (l : ConstantPtrList ρ) (i remaining : Nat) (r : ConstantPtrList ρ × List ρ) :
    Prop where
  total : r.1.total = l.total
  magicNum : r.1.magicNum = l.magicNum
  free : r.1.free = l.free ++ (List.range' i remaining).filter fun slot => (l.at? slot).isSome
  freeSize : r.1.freeSize + l.free.length = l.freeSize + r.1.free.length
  emptied : ∀ slot, r.1.at? slot = if i ≤ slot ∧ slot < i + remaining then none else l.at? slot
  destroyed : r.2 = (List.range' i remaining).filterMap l.at?

/-- Slot `i` and those behind it. -/
theorem emptied_succ {i remaining : Nat} {v w : Option ρ} (hv : slot = i → v = none)
    (hvw : slot ≠ i → v = w) :
    (if i + 1 ≤ slot ∧ slot < i + 1 + remaining then none else v) =
      if i ≤ slot ∧ slot < i + (remaining + 1) then none else w := by
  by_cases hs : slot = i
  · have hin : i ≤ slot ∧ slot < i + (remaining + 1) := by omega
    rw [hv hs, ite_self, if_pos hin]
  · rw [hvw hs]
    refine if_congr ?_ rfl rfl
    omega

/-- The list with a slot emptied and put on the free list. -/
def release (l : ConstantPtrList ρ) (slot : Nat) : ConstantPtrList ρ :=
  { l.store slot none with free := l.free ++ [slot], freeSize := l.freeSize + 1 }

theorem clearFrom_some {i remaining : Nat} (hat : l.at? i = some t) :
    l.clearFrom i (remaining + 1) =
      (((l.release i).clearFrom (i + 1) remaining).1,
        t :: ((l.release i).clearFrom (i + 1) remaining).2) := by
  simp only [clearFrom, hat]
  rfl

theorem clearFrom_spec (l : ConstantPtrList ρ) (i remaining : Nat)
    (hle : i + remaining ≤ l.total + 1) : Cleared l i remaining (l.clearFrom i remaining) := by
  induction remaining generalizing l i with
  | zero => exact ⟨rfl, rfl, by simp [clearFrom], rfl, fun slot => by simp [clearFrom], rfl⟩
  | succ remaining ih =>
    rw [Nat.add_comm remaining, ← Nat.add_assoc] at hle
    cases hat : l.at? i with
    | none =>
      simp only [clearFrom, hat]
      obtain ⟨htotal, hmagic, hfree, hsize, hemptied, hdestroyed⟩ := ih l (i + 1) hle
      refine ⟨htotal, hmagic, ?_, hsize, fun slot => ?_, ?_⟩
      · rw [hfree, List.range'_succ, List.filter_cons_of_neg (by simp [hat])]
      · rw [hemptied]
        exact emptied_succ (fun hs => hs ▸ hat) fun _ => rfl
      · rw [hdestroyed, List.range'_succ, List.filterMap_cons_none hat]
    | some t =>
      -- the slot is emptied and put on the free list, and the loop goes on
      have hi : i ≤ l.total := by omega
      have hat' : ∀ s, (l.release i).at? s = if i = s then none else l.at? s := at?_store hi none
      have hbehind : ∀ s ∈ List.range' (i + 1) remaining, (l.release i).at? s = l.at? s := by
        intro s hs
        rw [List.mem_range'_1] at hs
        rw [hat', if_neg (by omega)]
      have hfree' : (l.release i).free = l.free ++ [i] := rfl
      have hsize' : (l.release i).freeSize = l.freeSize + 1 := rfl
      obtain ⟨htotal, hmagic, hfree, hsize, hemptied, hdestroyed⟩ := ih (l.release i) (i + 1) hle
      rw [clearFrom_some hat]
      refine ⟨htotal, hmagic, ?_, ?_, fun slot => ?_, ?_⟩
      · rw [hfree, hfree', List.range'_succ, List.filter_cons_of_pos (by simp [hat]),
          List.append_assoc, List.singleton_append,
          List.filter_congr fun s hs => congrArg Option.isSome (hbehind s hs)]
      · rw [hfree', hsize', List.length_append, List.length_singleton] at hsize
        dsimp only
        omega
      · rw [hemptied, hat']
        exact emptied_succ (fun hs => if_pos hs.symm) fun hs => if_neg (Ne.symm hs)
      · rw [hdestroyed, List.range'_succ, List.filterMap_cons_some hat, List.filterMap_congr hbehind]

namespace Consistent

variable (h : Consistent l reserved added)
include h

/-- The slots that hold a pointer are those added. -/
theorem occupied_perm : l.occupied.Perm (added.map Prod.fst) := by
  have hnodup : l.occupied.Nodup := (List.nodup_range' ..).filter _
  have hadded := (List.nodup_append.mp h.nodup).2.1
  refine (List.perm_ext_iff_of_nodup hnodup hadded).mpr fun slot => ?_
  rw [occupied, List.mem_filter, List.mem_range'_1, List.mem_map, Option.isSome_iff_exists]
  constructor
  · rintro ⟨-, t, ht⟩
    exact ⟨(slot, t), (h.held slot t).mp ht, rfl⟩
  · rintro ⟨⟨slot, t⟩, hmem, rfl⟩
    have hrange := h.range (List.mem_append_right _ (List.mem_map_of_mem hmem))
    exact ⟨by omega, t, (h.held slot t).mpr hmem⟩

/-- **`clear`** destroys the pointers added and frees their slots. -/
theorem clear_spec :
    l.clear.1.magicNum = l.magicNum ∧ l.clear.1.total = l.total ∧
      l.clear.1.free = l.free ++ l.occupied ∧ l.clear.2.Perm (added.map Prod.snd) ∧
      Consistent l.clear.1 reserved [] := by
  obtain ⟨htotal, hmagic, hfree, hsize, hemptied, hdestroyed⟩ := clearFrom_spec l 1 l.total (by omega)
  refine ⟨hmagic, htotal, hfree, ?_, ?_⟩
  -- the pointers in the order of the slots
  · have hslots : l.clear.2 = l.occupied.filterMap l.at? := by
      refine hdestroyed.trans ?_
      unfold occupied
      rw [List.filterMap_filter]
      refine List.filterMap_congr fun slot _ => ?_
      cases l.at? slot <;> rfl
    have hpointers : (added.map Prod.fst).filterMap l.at? = added.map Prod.snd := by
      rw [List.filterMap_map, ← List.filterMap_eq_map]
      refine List.filterMap_congr fun p hp => ?_
      exact (h.held p.1 p.2).mpr hp
    rw [hslots, ← hpointers]
    exact h.occupied_perm.filterMap _
  · have hempty : ∀ slot, l.clear.1.at? slot = none := by
      intro slot
      refine (hemptied slot).trans ?_
      split
      · rfl
      · rename_i hout
        -- outside the loop's range there was nothing
        rw [Option.eq_none_iff_forall_ne_some]
        intro t ht
        have hmem := List.mem_map_of_mem (f := Prod.fst) ((h.held slot t).mp ht)
        have hrange := h.range (List.mem_append_right _ hmem)
        omega
    refine ⟨htotal ▸ h.small, hmagic ▸ h.magic, ?_, ?_, fun slot t => ?_⟩
    · change (l.clear.1.free ++ reserved ++ []).Perm (List.range' 1 (l.clearFrom 1 l.total).1.total)
      rw [htotal, List.append_nil]
      change ((l.clearFrom 1 l.total).1.free ++ reserved).Perm _
      rw [hfree]
      refine List.Perm.trans ?_ h.partition
      rw [List.append_assoc, List.append_assoc]
      exact ((List.perm_append_comm).trans (h.occupied_perm.append_left reserved)).append_left l.free
    · have hbefore := h.freeSize
      change (l.clearFrom 1 l.total).1.freeSize = (l.clearFrom 1 l.total).1.free.length
      omega
    · rw [hempty]
      simp

end Consistent

end ConstantPtrList

/-! ## Runs -/

open ConstantPtrList

/-- A pointer list in use. -/
structure PtrListState (ρ : Type*) where
  list : ConstantPtrList ρ
  /-- the ids `getUniqId` returned that were not added since -/
  reserved : List UInt32
  /-- the pointers added and not deleted since, each with its id -/
  added : List (UInt32 × ρ)

/-- A call of one of the list's functions. -/
inductive PtrListOp (ρ : Type*) where
  | getUniqId
  | add (t : ρ) (uid : UInt32)
  | del (uid : UInt32)
  | clear

variable {ρ : Type*}

/-- One call. -/
def ptrListStep (s : PtrListState ρ) : PtrListOp ρ → Except Fault (PtrListState ρ)
  | .getUniqId => do
    let (uid, list) ← s.list.getUniqId
    .ok { s with list := list, reserved := uid :: s.reserved }
  | .add t uid => do
    let list ← s.list.add t uid
    .ok { s with list := list, reserved := s.reserved.erase uid, added := (uid, t) :: s.added }
  | .del uid => do
    let list ← s.list.del uid
    .ok { s with list := list, added := s.added.filter fun p => p.1 ≠ uid }
  | .clear => .ok { s with list := s.list.clear.1, added := [] }

/-- The list after `init`. -/
def PtrListState.init (size : Nat) (needMagicNum : Bool) (now : Int) (uses : Nat) :
    PtrListState ρ where
  list := ConstantPtrList.init size needMagicNum now uses
  reserved := []
  added := []

/-- What the callers of the list keep to. -/
def PtrListOp.Admissible (s : PtrListState ρ) : PtrListOp ρ → Prop
  | .getUniqId => s.list.free ≠ []
  | .add _ uid => uid ∈ s.reserved
  | .del uid => uid ∈ s.added.map Prod.fst
  | .clear => True

/-- A pointer with the slot of its id. -/
def atSlot (p : UInt32 × ρ) : Nat × ρ := (ptrSlotOf p.1, p.2)

/-- The invariant of a run. -/
structure PtrListState.Inv (size : Nat) (s : PtrListState ρ) : Prop where
  consistent : Consistent s.list (s.reserved.map ptrSlotOf) (s.added.map atSlot)
  total : s.list.total = size
  magic : ∀ uid ∈ s.reserved ++ s.added.map Prod.fst, ptrMagicOf uid = s.list.magicNum

/-- What a list of `size` slots represents. -/
structure PtrListState.Represents (s : PtrListState ρ) (size : Nat) : Prop where
  /-- each slot is once in one of the three: free, reserved and occupied -/
  partition : (s.list.free ++ s.reserved.map ptrSlotOf ++ s.list.occupied).Perm (List.range' 1 size)
  freeSize : s.list.freeSize = s.list.free.length
  size_eq : s.list.size = s.reserved.length + s.list.occupied.length
  get : ∀ uid, ptrSlotOf uid ≤ size →
    ∃ v, s.list.get uid = .ok v ∧ ∀ t, v = some t ↔ (uid, t) ∈ s.added
  destroyed : s.list.clear.2.Perm (s.added.map Prod.snd)
  cleared : s.list.clear.1.free = s.list.free ++ s.list.occupied

/-- Of a key that occurs once there is one pair. -/
theorem perm_filter_key {κ : Type*} [DecidableEq κ] {added : List (κ × ρ)} {k : κ} {t : ρ}
    (hnodup : (added.map Prod.fst).Nodup) (hmem : (k, t) ∈ added) :
    added.Perm ((k, t) :: added.filter fun p => p.1 ≠ k) := by
  induction added with
  | nil => exact nomatch hmem
  | cons p added ih =>
    obtain ⟨hp, hnodup'⟩ := List.nodup_cons.mp hnodup
    rcases List.mem_cons.mp hmem with rfl | hmem'
    -- no other pair has the key
    · have hother : ∀ q ∈ added, decide (q.1 ≠ k) = true := by
        intro q hq
        rw [decide_eq_true_iff]
        rintro rfl
        exact hp (List.mem_map.mpr ⟨q, hq, rfl⟩)
      rw [List.filter_cons_of_neg (by simp), List.filter_eq_self.mpr hother]
    · have hne : p.1 ≠ k := by
        rintro rfl
        exact hp (List.mem_map.mpr ⟨(p.1, t), hmem', rfl⟩)
      rw [List.filter_cons_of_pos (by simpa using hne)]
      exact ((ih hnodup' hmem').cons p).trans (List.Perm.swap ..)

variable {s : PtrListState ρ} {size : Nat}

theorem PtrListState.Inv.nodup (h : s.Inv size) : (s.added.map Prod.fst).Nodup := by
  have hslots := (List.nodup_append.mp h.consistent.nodup).2.1
  rw [List.map_map] at hslots
  -- equal ids have equal slots
  have hmap : s.added.map (Prod.fst ∘ atSlot) = (s.added.map Prod.fst).map ptrSlotOf := by
    rw [List.map_map]
    rfl
  rw [hmap] at hslots
  exact List.Nodup.of_map _ hslots

/-- **Step**: an admissible call succeeds and keeps the invariant. -/
theorem PtrListState.Inv.step (h : s.Inv size) {op : PtrListOp ρ} (hop : op.Admissible s) :
    ∃ t, ptrListStep s op = .ok t ∧ t.Inv size := by
  have hcons := h.consistent
  cases op with
  | getUniqId =>
    obtain ⟨uid, l', hok, hmagic, hsame, htotal, hcons'⟩ := getUniqId_spec hcons hop
    simp only [ptrListStep, hok, bind, Except.bind]
    refine ⟨_, rfl, hcons', htotal.trans h.total, fun id hid => ?_⟩
    rcases List.mem_cons.mp hid with rfl | hid
    · exact hmagic.trans hsame.symm
    · exact (h.magic id hid).trans hsame.symm
  | add t uid =>
    have hmagic := h.magic _ (List.mem_append_left _ hop)
    have hperm := List.perm_cons_erase hop
    obtain ⟨l', hok, hsame, htotal, hcons'⟩ := add_spec t hmagic
      (hcons.perm (hperm.map ptrSlotOf) (List.Perm.refl _))
    simp only [ptrListStep, hok, bind, Except.bind]
    refine ⟨_, rfl, hcons', htotal.trans h.total, fun id hid => (h.magic id ?_).trans hsame.symm⟩
    rcases List.mem_append.mp hid with hid | hid
    · exact List.mem_append_left _ (List.mem_of_mem_erase hid)
    · rcases List.mem_cons.mp hid with rfl | hid
      · exact List.mem_append_left _ hop
      · exact List.mem_append_right _ hid
  | del uid =>
    obtain ⟨⟨uid', t⟩, hmem, rfl⟩ := List.mem_map.mp hop
    have hmagic := h.magic _ (List.mem_append_right _ hop)
    have hperm := perm_filter_key h.nodup hmem
    obtain ⟨l', hok, hsame, htotal, hcons'⟩ := del_spec hmagic
      (hcons.perm (List.Perm.refl _) (hperm.map atSlot))
    simp only [ptrListStep, hok, bind, Except.bind]
    refine ⟨_, rfl, hcons', htotal.trans h.total, fun id hid => (h.magic id ?_).trans hsame.symm⟩
    rcases List.mem_append.mp hid with hid | hid
    · exact List.mem_append_left _ hid
    · obtain ⟨p, hp, rfl⟩ := List.mem_map.mp hid
      exact List.mem_append_right _ (List.mem_map_of_mem (List.mem_of_mem_filter hp))
  | clear =>
    obtain ⟨hsame, htotal, -, -, hcons'⟩ := hcons.clear_spec
    refine ⟨_, rfl, hcons', htotal.trans h.total, fun id hid => (h.magic id ?_).trans hsame.symm⟩
    rw [List.map_nil, List.append_nil] at hid
    exact List.mem_append_left _ hid

theorem PtrListState.Inv.represents (h : s.Inv size) : s.Represents size := by
  obtain ⟨hcons, rfl, hmagic⟩ := h
  have hoccupied := hcons.occupied_perm
  have hpartition : (s.list.free ++ s.reserved.map ptrSlotOf ++ s.list.occupied).Perm
      (List.range' 1 s.list.total) := (hoccupied.append_left _).trans hcons.partition
  obtain ⟨-, -, hcleared, hdestroyed, -⟩ := hcons.clear_spec
  refine ⟨hpartition, hcons.freeSize, ?_, fun uid hslot => ?_, ?_, hcleared⟩
  · have hlength := hpartition.length_eq
    simp only [List.length_append, List.length_map, List.length_range'] at hlength
    rw [ConstantPtrList.size, hcons.freeSize]
    omega
  · obtain ⟨v, hok, hv⟩ := get_spec hcons hslot
    refine ⟨v, hok, fun t => (hv t).trans ⟨?_, fun hmem => ?_⟩⟩
    -- the id under which the pointer in the slot was added has the same parts
    · rintro ⟨hmagic', hmem⟩
      obtain ⟨⟨uid', t'⟩, hmem', heq⟩ := List.mem_map.mp hmem
      obtain ⟨hslot', rfl⟩ := Prod.mk.inj heq
      have hsame := hmagic uid' (List.mem_append_right _ (List.mem_map_of_mem hmem'))
      have huid : uid' = uid := ptrMasks.ext (hsame.trans hmagic'.symm) hslot'
      exact huid ▸ hmem'
    · exact ⟨hmagic uid (List.mem_append_right _ (List.mem_map_of_mem hmem)),
        List.mem_map_of_mem (f := atSlot) hmem⟩
  · rw [List.map_map] at hdestroyed
    exact hdestroyed

theorem ptrListInit_inv (hsize : size < 2 ^ 24) (needMagicNum : Bool) (now : Int) (uses : Nat) :
    (PtrListState.init size needMagicNum now uses : PtrListState ρ).Inv size where
  consistent := init_consistent hsize needMagicNum now uses
  total := rfl
  magic := fun _ h => nomatch h

/-- **Representation invariant**: along every run whose calls the callers may make no assertion fails,
and in every state reached the free list, the counter and the array agree with what was handed out,
added and deleted. -/
theorem ptr_list_represents (ρ : Type*) {size : Nat} (hsize : size < 2 ^ 24) (needMagicNum : Bool)
    (now : Int) (uses : Nat) {ops : List (PtrListOp ρ)}
    (hops : Along ptrListStep (fun s op => op.Admissible s)
      (PtrListState.init size needMagicNum now uses) ops) :
    ∃ t, run ptrListStep (PtrListState.init size needMagicNum now uses) ops = .ok t ∧
      t.Represents size := by
  obtain ⟨t, hrun, hinv⟩ := run_ok (fun s _ hs hop => hs.step hop)
    (ptrListInit_inv hsize needMagicNum now uses) hops
  exact ⟨t, hrun, hinv.represents⟩

/-- Two pointers come, one goes, and the list is cleared. -/
theorem ptr_list_represents_two :
    ∃ t, run ptrListStep (PtrListState.init 2 false 0 0)
      [.getUniqId, .getUniqId, .add 'a' 1, .add 'b' 2, .del 1, .clear] = .ok t ∧
      t.Represents 2 := by
  refine ptr_list_represents Char (by decide) false 0 0 ?_
  refine .cons_ok (by simp [PtrListOp.Admissible, PtrListState.init, ConstantPtrList.init]) rfl ?_
  refine .cons_ok (by simp [PtrListOp.Admissible]) rfl ?_
  refine .cons_ok (by decide : (1 : UInt32) ∈ [(0 : UInt32) ||| 2, (0 : UInt32) ||| 1]) rfl ?_
  refine .cons_ok (by decide : (2 : UInt32) ∈ [(2 : UInt32)]) rfl ?_
  refine .cons_ok (by decide : (1 : UInt32) ∈ [(2 : UInt32), 1]) rfl ?_
  exact .cons_ok trivial rfl trivial

end Sails.Base
