import Sails.Base.AutoData

/-!
# What the two copies of `auto_data` lose

The copy constructor and `operator=` as functions on the values that objects stand for, and the values
on which they are the identity.

- `Value.copied`, `Value.trimmed`, `Value.assigned`: the value a copy stands for
- `copy_assign_spec`: the two methods compute these
- `Copyable`, `Assignable`: no list with items, and no NUL in a string that `operator=` copies
- `copies_faithful_iff`: exactly these values are kept
-/

namespace Sails.Base

open CMemory

/-- A new element has no old ones in it. -/
theorem AutoData.reused_null (reuse : Reuse) (key : Bytes) : reused reuse null key = none := by
  unfold reused
  cases reuse null.mapData key with
  | none => rfl
  | some i => rfl

namespace Value

/-! ## Values of copies -/

mutual

/-- What is left of a value in a map: strings up to their first NUL, lists without their items. -/
def trimmed : Value → Value
  | .string s => .string (text s)
  | .map rows => .map (trimmedRows rows)
  | .list _ => .list []
  | v => v
termination_by structural v => v

def trimmedRows : List (Bytes × Value) → List (Bytes × Value)
  | [] => []
  | (k, v) :: rows => (k, v.trimmed) :: trimmedRows rows
termination_by structural rows => rows

end

/-- What is left of a value in a copy of it. -/
def copied : Value → Value
  | .map rows => .map (trimmedRows rows)
  | .list _ => .list []
  | v => v

mutual

/-- What is left of a value that is assigned to `target`, which keeps the items it had. -/
def assigned (reuse : Reuse) : AutoData → Value → Value
  | _, .string s => .string (text s)
  | target, .map rows => .map (assignedRows reuse target rows)
  | target, .list _ => .list (AutoData.meaningItems target.listData)
  | _, v => v
termination_by structural _ v => v

def assignedRows (reuse : Reuse) : AutoData → List (Bytes × Value) → List (Bytes × Value)
  | _, [] => []
  | target, (k, v) :: rows =>
    (k, match AutoData.reused reuse target k with
      | none => v.copied
      | some old => assigned reuse old v) :: assignedRows reuse target rows
termination_by structural _ rows => rows

end

variable {reuse : Reuse} {target : AutoData} {v : Value} {rows : List (Bytes × Value)}

theorem trimmedRows_eq (rows : List (Bytes × Value)) :
    trimmedRows rows = rows.map fun r => (r.1, r.2.trimmed) := by
  induction rows with
  | nil => rfl
  | cons r rows ih => exact congrArg ((r.1, r.2.trimmed) :: ·) ih

/-- The value under a key of a map that is assigned. -/
def element (reuse : Reuse) (target : AutoData) (r : Bytes × Value) : Value :=
  match AutoData.reused reuse target r.1 with
  | none => r.2.copied
  | some old => assigned reuse old r.2

theorem assignedRows_eq (rows : List (Bytes × Value)) :
    assignedRows reuse target rows = rows.map fun r => (r.1, element reuse target r) := by
  induction rows with
  | nil => rfl
  | cons r rows ih => exact congrArg ((r.1, element reuse target r) :: ·) ih

theorem trimmed_trimmed (v : Value) : v.trimmed.trimmed = v.trimmed := by
  induction v with
  | null => rfl
  | string s => exact congrArg Value.string (text_text s)
  | boolean b => rfl
  | integer i => rfl
  | float f => rfl
  | map rows ih =>
    rw [trimmed, trimmed, trimmedRows_eq, trimmedRows_eq, List.map_map]
    refine congrArg Value.map (List.map_congr_left fun r hr => ?_)
    exact congrArg (Prod.mk r.1) (ih r hr)
  | list items ih => rfl

/-- What is trimmed survives another copy. -/
theorem copied_trimmed (v : Value) : v.trimmed.copied = v.trimmed := by
  cases v with
  | map rows => exact trimmed_trimmed (.map rows)
  | _ => rfl

/-- **Into a map**: a copy that is assigned to a new element. -/
theorem assigned_null_copied (v : Value) : assigned reuse .null v.copied = v.trimmed := by
  cases v with
  | map rows =>
    show Value.map (assignedRows reuse .null (trimmedRows rows)) = .map (trimmedRows rows)
    rw [assignedRows_eq, trimmedRows_eq, List.map_map]
    refine congrArg Value.map (List.map_congr_left fun r hr => ?_)
    show (r.1, element reuse .null (r.1, r.2.trimmed)) = (r.1, r.2.trimmed)
    rw [element, AutoData.reused_null]
    exact congrArg (Prod.mk r.1) (copied_trimmed r.2)
  | _ => rfl

/-! ## Depth and order -/

theorem depth_le_of_mem {r : Bytes × Value} (h : r ∈ rows) : r.2.depth ≤ depthRows rows := by
  induction rows with
  | nil => cases h
  | cons s rows ih =>
    rw [depthRows]
    rcases List.mem_cons.mp h with rfl | h
    · exact Nat.le_max_left ..
    · exact (ih h).trans (Nat.le_max_right ..)

theorem depthRows_map_le {f : Bytes × Value → Value} (h : ∀ r ∈ rows, (f r).depth ≤ r.2.depth) :
    depthRows (rows.map fun r => (r.1, f r)) ≤ depthRows rows := by
  induction rows with
  | nil => exact Nat.le_refl 0
  | cons r rows ih =>
    have hfirst := h r (List.mem_cons_self ..)
    have hrest := ih fun s hs => h s (List.mem_cons_of_mem _ hs)
    rw [List.map_cons, depthRows, depthRows]
    omega

theorem depth_trimmed_le (v : Value) : v.trimmed.depth ≤ v.depth := by
  induction v with
  | map rows ih =>
    rw [trimmed, trimmedRows_eq]
    exact Nat.succ_le_succ (depthRows_map_le ih)
  | _ => exact Nat.le_refl 0

theorem depth_copied_le (v : Value) : v.copied.depth ≤ v.depth := by
  cases v with
  | map rows => exact depth_trimmed_le (.map rows)
  | _ => exact Nat.le_refl 0

/-- New values under the old keys. -/
theorem Ordered.map_rows {f : Bytes × Value → Value} (hsorted : OrderedMap.Sorted rows)
    (h : ∀ r ∈ rows, Ordered (f r)) : Ordered (.map (rows.map fun r => (r.1, f r))) := by
  refine .map ?_ fun s hs => ?_
  · exact List.pairwise_map.mpr hsorted
  · obtain ⟨r, hr, rfl⟩ := List.mem_map.mp hs
    exact h r hr

theorem Ordered.trimmed (h : Ordered v) : Ordered v.trimmed := by
  induction h with
  | map hsorted _ ih =>
    rw [Value.trimmed, trimmedRows_eq]
    exact .map_rows hsorted ih
  | list => exact .list (by simp)
  | string s => exact .string _
  | null => exact .null
  | boolean b => exact .boolean b
  | integer i => exact .integer i
  | float f => exact .float f

theorem Ordered.copied (h : Ordered v) : Ordered v.copied := by
  cases v with
  | map rows => exact h.trimmed
  | list items => exact h.trimmed
  | _ => exact h

end Value

/-! ## The two methods -/

namespace AutoData

variable {reuse : Reuse} {rows out : List (Bytes × AutoData)}

/-- Rows with the same keys, and values that stand for something made of those they were made of. -/
theorem meaningRows_of_forall₂ {f : Bytes × Value → Value}
    (h : List.Forall₂ (fun r s => s.1 = r.1 ∧ s.2.meaning = f (r.1, r.2.meaning)) rows out) :
    meaningRows out = (meaningRows rows).map fun r => (r.1, f r) := by
  induction h with
  | nil => rfl
  | @cons r s rows out hrs _ ih =>
    rw [meaningRows_eq, meaningRows_eq] at ih ⊢
    rw [List.map_cons, List.map_cons, List.map_cons, ih, hrs.1, hrs.2]

/-- A loop in which every row makes a value. -/
theorem exists_mapM {α β : Type} {g : α → Option β} {R : α → β → Prop} {l : List α}
    (h : ∀ a ∈ l, ∃ b, g a = some b ∧ R a b) :
    ∃ out, l.mapM g = some out ∧ List.Forall₂ R l out := by
  induction l with
  | nil => exact ⟨[], rfl, .nil⟩
  | cons a l ih =>
    obtain ⟨b, hb, hR⟩ := h a (List.mem_cons_self ..)
    obtain ⟨out, hout, hall⟩ := ih fun x hx => h x (List.mem_cons_of_mem _ hx)
    refine ⟨b :: out, ?_, .cons hR hall⟩
    rw [List.mapM_cons, hb, hout]
    rfl

/-- What the rows of an ordered map are like. -/
theorem ordered_rows {fuel : Nat} (hordered : Value.Ordered (.map (meaningRows rows)))
    (hfuel : (Value.map (meaningRows rows)).depth < fuel + 1) :
    OrderedMap.Sorted rows ∧ ∀ r ∈ rows, r.2.meaning.Ordered ∧ r.2.meaning.depth < fuel := by
  rw [Value.depth] at hfuel
  cases hordered with
  | map hsorted hrows =>
    constructor
    · rw [meaningRows_eq, OrderedMap.Sorted, List.pairwise_map] at hsorted
      exact hsorted
    · intro r hr
      have hmem : (r.1, r.2.meaning) ∈ meaningRows rows := by
        rw [meaningRows_eq]
        exact List.mem_map_of_mem hr
      refine ⟨hrows _ hmem, ?_⟩
      exact (Value.depth_le_of_mem hmem).trans_lt (Nat.lt_of_succ_lt_succ hfuel)

/-- **The two copies** of an object, with enough fuel for its depth. -/
theorem copy_assign_spec (reuse : Reuse) (fuel : Nat) :
    (∀ x : AutoData, x.meaning.Ordered → x.meaning.depth < fuel →
      ∃ y, copy reuse fuel x = some y ∧ y.meaning = x.meaning.copied) ∧
    ∀ target x : AutoData, x.meaning.Ordered → x.meaning.depth < fuel →
      ∃ y, assign reuse fuel target x = some y ∧ y.meaning = Value.assigned reuse target x.meaning := by
  induction fuel with
  | zero => exact ⟨fun x _ h => absurd h (Nat.not_lt_zero _), fun _ x _ h => absurd h (Nat.not_lt_zero _)⟩
  | succ fuel ih =>
    obtain ⟨hcopy, hassign⟩ := ih
    constructor
    · rintro ⟨type, value, mapData, listData⟩ hordered hfuel
      cases type with
      | map =>
        obtain ⟨hsorted, hrows⟩ := ordered_rows hordered hfuel
        -- each row: a copy of the value, assigned to a new element
        have hmake : ∀ r ∈ mapData, ∃ y, (do
            let d ← copy reuse fuel r.2
            assign reuse fuel ((none : Option AutoData).getD null) d) = some y ∧
            y.meaning = r.2.meaning.trimmed := by
          intro r hr
          obtain ⟨hordered', hfuel'⟩ := hrows r hr
          obtain ⟨d, hd, hmeaning⟩ := hcopy r.2 hordered' hfuel'
          obtain ⟨y, hy, hmeaning'⟩ := hassign null d (hmeaning ▸ hordered'.copied)
            (hmeaning ▸ (Value.depth_copied_le _).trans_lt hfuel')
          refine ⟨y, by rw [hd]; exact hy, ?_⟩
          rw [hmeaning', hmeaning, Value.assigned_null_copied]
        obtain ⟨out, hout, hall⟩ := OrderedMap.exists_foldlM_set
          (fun old r => do
            let d ← copy reuse fuel r.2
            assign reuse fuel (old.getD null) d) hsorted hmake
        simp only [bind_assoc] at hout
        refine ⟨{ null with type := .map, mapData := out }, ?_, ?_⟩
        · simp only [copy, hout]
          rfl
        · show Value.map (meaningRows out) = .map (Value.trimmedRows (meaningRows mapData))
          rw [Value.trimmedRows_eq]
          exact congrArg Value.map (meaningRows_of_forall₂ hall)
      | _ => exact ⟨_, rfl, rfl⟩
    · rintro target ⟨type, value, mapData, listData⟩ hordered hfuel
      cases type with
      | map =>
        obtain ⟨-, hrows⟩ := ordered_rows hordered hfuel
        -- each row: a copy of the value, or the value assigned to an old element
        have hmake : ∀ r ∈ mapData, ∃ s : Bytes × AutoData, (do
            let new ← (reused reuse target r.1).elim (copy reuse fuel r.2) fun old =>
              assign reuse fuel old r.2
            return (r.1, new)) = some s ∧
            s.1 = r.1 ∧ s.2.meaning = Value.element reuse target (r.1, r.2.meaning) := by
          intro r hr
          obtain ⟨hordered', hfuel'⟩ := hrows r hr
          rw [Value.element]
          cases reused reuse target r.1 with
          | none =>
            obtain ⟨y, hy, hmeaning⟩ := hcopy r.2 hordered' hfuel'
            exact ⟨(r.1, y), by rw [Option.elim_none, hy]; rfl, rfl, hmeaning⟩
          | some old =>
            obtain ⟨y, hy, hmeaning⟩ := hassign old r.2 hordered' hfuel'
            exact ⟨(r.1, y), by rw [Option.elim_some, hy]; rfl, rfl, hmeaning⟩
        obtain ⟨out, hout, hall⟩ := exists_mapM hmake
        refine ⟨{ target with type := .map, mapData := out }, ?_, ?_⟩
        · simp only [assign, hout]
          rfl
        · show Value.map (meaningRows out) =
            .map (Value.assignedRows reuse target (meaningRows mapData))
          rw [Value.assignedRows_eq]
          exact congrArg Value.map (meaningRows_of_forall₂ hall)
      | _ => exact ⟨_, rfl, rfl⟩

end AutoData

/-! ## What is kept -/

namespace Value

/-- A value that a map copies faithfully: no NUL in its strings, and no item in its lists. -/
inductive Plain : Value → Prop where
  | null : Plain .null
  | string {s : Bytes} (h : 0 ∉ s) : Plain (.string s)
  | boolean (b : Bool) : Plain (.boolean b)
  | integer (i : Int64) : Plain (.integer i)
  | float (f : Double) : Plain (.float f)
  | map {rows : List (Bytes × Value)} (h : ∀ r ∈ rows, Plain r.2) : Plain (.map rows)
  | list : Plain (.list [])

/-- A value that the copy constructor copies faithfully: a string on its own may have a NUL in it. -/
inductive Copyable : Value → Prop where
  | plain {v : Value} (h : Plain v) : Copyable v
  | string (s : Bytes) : Copyable (.string s)

/-- A value that `operator=` copies faithfully to the target: a list has to have the target's items, and
the values of a map to be such that they survive what `std::map` does to them. -/
inductive Assignable (reuse : Reuse) : AutoData → Value → Prop where
  | null {target : AutoData} : Assignable reuse target .null
  | string {target : AutoData} {s : Bytes} (h : 0 ∉ s) : Assignable reuse target (.string s)
  | boolean {target : AutoData} (b : Bool) : Assignable reuse target (.boolean b)
  | integer {target : AutoData} (i : Int64) : Assignable reuse target (.integer i)
  | float {target : AutoData} (f : Double) : Assignable reuse target (.float f)
  | map {target : AutoData} {rows : List (Bytes × Value)}
      (hnew : ∀ r ∈ rows, AutoData.reused reuse target r.1 = none → Copyable r.2)
      (hold : ∀ r ∈ rows, ∀ old, AutoData.reused reuse target r.1 = some old →
        Assignable reuse old r.2) : Assignable reuse target (.map rows)
  | list {target : AutoData} : Assignable reuse target (.list (AutoData.meaningItems target.listData))

variable {reuse : Reuse} {target : AutoData} {v : Value} {rows : List (Bytes × Value)}

theorem text_eq_iff {s : Bytes} : text s = s ↔ 0 ∉ s := by
  constructor
  · intro h hmem
    rw [← h] at hmem
    exact ne_zero_of_mem_text hmem rfl
  · intro h
    exact text_eq_self fun c hc hzero => h (hzero ▸ hc)

/-- Rows are kept when their values are. -/
theorem map_rows_eq_iff {f : Bytes × Value → Value} :
    rows.map (fun r => (r.1, f r)) = rows ↔ ∀ r ∈ rows, f r = r.2 := by
  have hid : rows.map (fun r => (r.1, f r)) = rows ↔
      rows.map (fun r => (r.1, f r)) = rows.map id := by rw [List.map_id]
  rw [hid, List.map_inj_left]
  refine forall₂_congr fun r _ => ?_
  exact ⟨fun h => congrArg Prod.snd h, fun h => Prod.ext rfl h⟩

theorem trimmed_eq_iff : v.trimmed = v ↔ Plain v := by
  induction v with
  | null => exact ⟨fun _ => .null, fun _ => rfl⟩
  | string s =>
    rw [trimmed, Value.string.injEq, text_eq_iff]
    exact ⟨.string, fun h => by cases h; assumption⟩
  | boolean b => exact ⟨fun _ => .boolean b, fun _ => rfl⟩
  | integer i => exact ⟨fun _ => .integer i, fun _ => rfl⟩
  | float f => exact ⟨fun _ => .float f, fun _ => rfl⟩
  | map rows ih =>
    rw [trimmed, Value.map.injEq, trimmedRows_eq, map_rows_eq_iff]
    constructor
    · exact fun h => .map fun r hr => (ih r hr).mp (h r hr)
    · intro h r hr
      cases h with
      | map h => exact (ih r hr).mpr (h r hr)
  | list items _ =>
    rw [trimmed, Value.list.injEq]
    constructor
    · rintro rfl
      exact .list
    · intro h
      cases h
      rfl

theorem copied_eq_iff : v.copied = v ↔ Copyable v := by
  cases v with
  | string s => exact ⟨fun _ => .string s, fun _ => rfl⟩
  | null => exact ⟨fun _ => .plain .null, fun _ => rfl⟩
  | boolean b => exact ⟨fun _ => .plain (.boolean b), fun _ => rfl⟩
  | integer i => exact ⟨fun _ => .plain (.integer i), fun _ => rfl⟩
  | float f => exact ⟨fun _ => .plain (.float f), fun _ => rfl⟩
  | map rows =>
    -- a map or a list is copied as it is trimmed
    refine ⟨fun h => .plain (trimmed_eq_iff.mp h), fun h => ?_⟩
    cases h with
    | plain h => exact trimmed_eq_iff.mpr h
  | list items =>
    refine ⟨fun h => .plain (trimmed_eq_iff.mp h), fun h => ?_⟩
    cases h with
    | plain h => exact trimmed_eq_iff.mpr h

theorem assigned_eq_iff : assigned reuse target v = v ↔ Assignable reuse target v := by
  induction v generalizing target with
  | null => exact ⟨fun _ => .null, fun _ => rfl⟩
  | string s =>
    rw [assigned, Value.string.injEq, text_eq_iff]
    exact ⟨.string, fun h => by cases h; assumption⟩
  | boolean b => exact ⟨fun _ => .boolean b, fun _ => rfl⟩
  | integer i => exact ⟨fun _ => .integer i, fun _ => rfl⟩
  | float f => exact ⟨fun _ => .float f, fun _ => rfl⟩
  | map rows ih =>
    rw [assigned, Value.map.injEq, assignedRows_eq, map_rows_eq_iff]
    constructor
    · intro h
      refine .map (fun r hr hnone => ?_) fun r hr old hold => ?_
      · have hr' := h r hr
        rw [element, hnone] at hr'
        exact copied_eq_iff.mp hr'
      · have hr' := h r hr
        rw [element, hold] at hr'
        exact (ih r hr).mp hr'
    · intro h r hr
      cases h with
      | map hnew hold =>
        rw [element]
        cases hreused : AutoData.reused reuse target r.1 with
        | none => exact copied_eq_iff.mpr (hnew r hr hreused)
        | some old => exact (ih r hr).mpr (hold r hr old hreused)
  | list items _ =>
    rw [assigned, Value.list.injEq]
    constructor
    · rintro rfl
      exact .list
    · intro h
      cases h
      rfl

end Value

/-- **The copies of an object are faithful** exactly when nothing in it is lost on the way. The rows
of a map are in the order of their keys, as `std::map` keeps them. The source and the target are
distinct objects: an assignment such as `x = x["k"]`, whose source is a part of its target, is
not one of these. -/
theorem AutoData.copies_faithful_iff (reuse : Reuse) (x target : AutoData)
    (hordered : x.meaning.Ordered) {fuel : Nat} (hfuel : x.meaning.depth < fuel) :
    ((∃ y, copy reuse fuel x = some y ∧ y.meaning = x.meaning) ∧
      ∃ y, assign reuse fuel target x = some y ∧ y.meaning = x.meaning) ↔
      x.meaning.Copyable ∧ x.meaning.Assignable reuse target := by
  obtain ⟨hcopy, hassign⟩ := copy_assign_spec reuse fuel
  obtain ⟨y, hy, hmeaning⟩ := hcopy x hordered hfuel
  obtain ⟨z, hz, hmeaning'⟩ := hassign target x hordered hfuel
  rw [← Value.copied_eq_iff, ← Value.assigned_eq_iff, hy, hz]
  constructor
  · rintro ⟨⟨_, hsame, hkept⟩, _, hsame', hkept'⟩
    cases hsame
    cases hsame'
    exact ⟨hmeaning.symm.trans hkept, hmeaning'.symm.trans hkept'⟩
  · rintro ⟨hkept, hkept'⟩
    exact ⟨⟨y, rfl, hmeaning.trans hkept⟩, z, rfl, hmeaning'.trans hkept'⟩

/-- The maps of the test: `m["age"] = 10`, `m["name"] = "xu"` and `mm["1"] = m`. -/
def AutoData.nestedMap : AutoData :=
  null.store (ascii "1") ((null.store (ascii "age") (ofInt 10)).store (ascii "name")
    (ofString (ascii "xu")))

/-- It is assigned to a list. -/
theorem AutoData.copies_faithful_iff_nestedMap :
    (∃ y, copy (fun _ _ => none) 3 nestedMap = some y ∧ y.meaning = nestedMap.meaning) ∧
      ∃ y, assign (fun _ _ => none) 3 ⟨.list, {}, [], [ofBool true]⟩ nestedMap = some y ∧
        y.meaning = nestedMap.meaning := by
  have hmeaning : nestedMap.meaning = .map [(ascii "1", .map [(ascii "age", .integer 10),
    (ascii "name", .string (ascii "xu"))])] := rfl
  have hinner {P : Value → Prop} (hage : P (.integer 10)) (hname : P (.string (ascii "xu"))) :
      ∀ r ∈ [(ascii "age", Value.integer 10), (ascii "name", .string (ascii "xu"))], P r.2 := by
    intro r hr
    rcases List.mem_pair.mp hr with rfl | rfl
    · exact hage
    · exact hname
  have hplain : Value.Plain (.map [(ascii "age", .integer 10), (ascii "name",
      .string (ascii "xu"))]) := .map (hinner (.integer 10) (.string (by decide)))
  have hordered : nestedMap.meaning.Ordered := by
    rw [hmeaning]
    refine .map (List.pairwise_singleton _ _) fun r hr => ?_
    rw [List.mem_singleton.mp hr]
    exact .map (List.pairwise_pair.mpr (by decide)) (hinner (.integer 10) (.string _))
  refine (copies_faithful_iff (fun _ _ => none) nestedMap _ hordered (by decide)).mpr ?_
  rw [hmeaning]
  constructor
  · refine .plain (.map fun r hr => ?_)
    rw [List.mem_singleton.mp hr]
    exact hplain
  · refine .map (fun r hr _ => ?_) fun r hr old hold => ?_
    · rw [List.mem_singleton.mp hr]
      exact .plain hplain
    · cases hold

/-- A list with an item is copied as an empty one, and `"a\0b"` is assigned as `"a"`. -/
theorem AutoData.copies_not_faithful :
    ¬(∃ y, copy (fun _ _ => none) 1 ⟨.list, {}, [], [ofInt 1]⟩ = some y ∧
      y.meaning = .list [.integer 1]) ∧
    ¬∃ y, assign (fun _ _ => none) 1 null (ofString [97, 0, 98]) = some y ∧
      y.meaning = .string [97, 0, 98] := by
  constructor
  · rintro ⟨y, hy, hmeaning⟩
    cases hy
    cases hmeaning
  · rintro ⟨y, hy, hmeaning⟩
    cases hy
    cases hmeaning

end Sails.Base
