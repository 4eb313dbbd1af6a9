import Sails.Base.AutoData.Copies

/-!
# The maps of an `auto_data` stay in order

Every map an object has, also one its tag no longer names, has its rows in the order of their keys.

- `Sound`: this, for the object and all objects in it
- `Sound.ordered`: the value it stands for is ordered
- `Sound.store`, `Sound.copy_assign`, `Sound.pushBack`: the methods keep it
-/

namespace Sails.Base

open CMemory

namespace AutoData

/-- The rows of every map are in the order of their keys. -/
inductive Sound : AutoData → Prop where
  | mk {type : DataType} {value : DataValue} {mapData : List (Bytes × AutoData)}
      {listData : List AutoData} (hsorted : OrderedMap.Sorted mapData)
      (hrows : ∀ r ∈ mapData, Sound r.2) (hitems : ∀ x ∈ listData, Sound x) :
      Sound ⟨type, value, mapData, listData⟩

namespace Sound

variable {x y : AutoData} {key : Bytes} {reuse : Reuse} {fuel : Nat}

theorem sorted (h : Sound x) : OrderedMap.Sorted x.mapData := by
  cases h with
  | mk hsorted _ _ => exact hsorted

theorem row (h : Sound x) : ∀ r ∈ x.mapData, Sound r.2 := by
  cases h with
  | mk _ hrows _ => exact hrows

theorem item (h : Sound x) : ∀ y ∈ x.listData, Sound y := by
  cases h with
  | mk _ _ hitems => exact hitems

/-- An object without a map and a list. -/
theorem scalar (type : DataType) (value : DataValue) : Sound ⟨type, value, [], []⟩ :=
  .mk .nil (by simp) (by simp)

/-- **What it stands for** is ordered. -/
theorem ordered (h : Sound x) : x.meaning.Ordered := by
  induction h with
  | @mk type value mapData listData hsorted _ _ hrows hitems =>
    cases type with
    | null => exact .null
    | string => exact .string _
    | boolean => exact .boolean _
    | numberInteger => exact .integer _
    | numberFloat => exact .float _
    | map =>
      show Value.Ordered (.map (meaningRows mapData))
      rw [meaningRows_eq]
      refine .map ?_ fun s hs => ?_
      · exact List.pairwise_map.mpr hsorted
      · obtain ⟨r, hr, rfl⟩ := List.mem_map.mp hs
        exact hrows r hr
    | list =>
      show Value.Ordered (.list (meaningItems listData))
      rw [meaningItems_eq]
      refine .list fun v hv => ?_
      obtain ⟨y, hy, rfl⟩ := List.mem_map.mp hv
      exact hitems y hy

/-- A value written under a key. -/
theorem set (hsorted : OrderedMap.Sorted x.mapData) (hrows : ∀ r ∈ x.mapData, Sound r.2)
    (hitems : ∀ z ∈ x.listData, Sound z) (hy : Sound y) (type : DataType) :
    Sound ⟨type, x.value, OrderedMap.set x.mapData key y, x.listData⟩ := by
  refine .mk hsorted.set (fun r hr => ?_) hitems
  rcases OrderedMap.mem_set hr with rfl | hr
  · exact hy
  · exact hrows r hr

/-- `operator[]`, and what is written through the reference it returns. -/
theorem store (h : Sound x) (hy : Sound y) : Sound (x.store key y) := by
  rw [AutoData.store, index]
  cases OrderedMap.find x.mapData key with
  | none =>
    have hindexed : Sound ⟨.map, x.value, OrderedMap.set x.mapData key null, x.listData⟩ :=
      set h.sorted h.row h.item (scalar _ _) .map
    exact set hindexed.sorted hindexed.row hindexed.item hy .map
  | some v => exact set h.sorted h.row h.item hy .map

/-- An old element is one of the target's. -/
theorem mem_of_reused {old : AutoData} (h : reused reuse x key = some old) :
    ∃ r ∈ x.mapData, r.2 = old := by
  obtain ⟨i, -, h⟩ := Option.bind_eq_some_iff.mp h
  obtain ⟨r, hr, h⟩ := Option.bind_eq_some_iff.mp h
  cases h
  exact ⟨r, List.mem_of_getElem? hr, rfl⟩

/-- A loop over an accumulator. -/
theorem foldlM_invariant {α β : Type} {f : β → α → Option β} {I : β → Prop} {l : List α}
    (hstep : ∀ a ∈ l, ∀ b c, I b → f b a = some c → I c) {b c : β} (hb : I b)
    (h : l.foldlM f b = some c) : I c := by
  induction l generalizing b with
  | nil =>
    cases h
    exact hb
  | cons a l ih =>
    rw [List.foldlM_cons] at h
    obtain ⟨b', hb', hrest⟩ := Option.bind_eq_some_iff.mp h
    refine ih (fun x hx => hstep x (List.mem_cons_of_mem _ hx)) ?_ hrest
    exact hstep a (List.mem_cons_self ..) b b' hb hb'

/-- A loop that makes one thing of each. -/
theorem forall₂_of_mapM {α β : Type} {g : α → Option β} {R : α → β → Prop} {l : List α}
    {out : List β} (hstep : ∀ a ∈ l, ∀ b, g a = some b → R a b) (h : l.mapM g = some out) :
    List.Forall₂ R l out := by
  induction l generalizing out with
  | nil =>
    cases h
    exact .nil
  | cons a l ih =>
    rw [List.mapM_cons] at h
    obtain ⟨b, hb, h⟩ := Option.bind_eq_some_iff.mp h
    obtain ⟨rest, hrest, h⟩ := Option.bind_eq_some_iff.mp h
    cases h
    refine .cons (hstep a (List.mem_cons_self ..) b hb) ?_
    exact ih (fun x hx => hstep x (List.mem_cons_of_mem _ hx)) hrest

/-- What one thing is made of each in a list. -/
theorem forall₂_exists_of_mem {α β : Type} {R : α → β → Prop} {l : List α} {out : List β}
    (h : List.Forall₂ R l out) {b : β} (hb : b ∈ out) : ∃ a ∈ l, R a b := by
  induction h with
  | nil => cases hb
  | cons hab _ ih =>
    rcases List.mem_cons.mp hb with rfl | hb
    · exact ⟨_, List.mem_cons_self .., hab⟩
    · obtain ⟨a, ha, hR⟩ := ih hb
      exact ⟨a, List.mem_cons_of_mem _ ha, hR⟩

/-- Rows made one of each keep the keys. -/
theorem rows_of_forall₂ {rows out : List (Bytes × AutoData)}
    (h : List.Forall₂ (fun r s => s.1 = r.1 ∧ Sound s.2) rows out) :
    out.map Prod.fst = rows.map Prod.fst ∧ ∀ s ∈ out, Sound s.2 := by
  induction h with
  | nil => exact ⟨rfl, fun s hs => by cases hs⟩
  | @cons r s rows out hrs _ ih =>
    refine ⟨by rw [List.map_cons, List.map_cons, hrs.1, ih.1], fun t ht => ?_⟩
    rcases List.mem_cons.mp ht with rfl | ht
    · exact hrs.2
    · exact ih.2 t ht

/-- **The two copies** keep the order. -/
theorem copy_assign (reuse : Reuse) (fuel : Nat) :
    (∀ x y, Sound x → copy reuse fuel x = some y → Sound y) ∧
    ∀ target x y, Sound target → Sound x → assign reuse fuel target x = some y → Sound y := by
  induction fuel with
  | zero =>
    constructor
    · intro x y _ h
      cases h
    · intro target x y _ _ h
      cases h
  | succ fuel ih =>
    obtain ⟨hcopy, hassign⟩ := ih
    constructor
    · rintro ⟨type, value, mapData, listData⟩ y hx h
      cases type with
      | map =>
        obtain ⟨out, hout, h⟩ := Option.bind_eq_some_iff.mp h
        cases h
        -- the rows written so far are in order, and what is in them is sound
        have hnone : ∀ r ∈ ([] : List (Bytes × AutoData)), Sound r.2 := fun r hr => by cases hr
        have hrows := foldlM_invariant (I := fun rows : List (Bytes × AutoData) =>
          OrderedMap.Sorted rows ∧ ∀ r ∈ rows, Sound r.2) ?_ ⟨.nil, hnone⟩ hout
        · exact .mk hrows.1 hrows.2 fun x hx => by cases hx
        · rintro r hr rows rows' ⟨hsorted, hsound⟩ hset
          obtain ⟨d, hd, hset⟩ := Option.bind_eq_some_iff.mp hset
          obtain ⟨new, hnew, hset⟩ := Option.bind_eq_some_iff.mp hset
          cases hset
          have hold : Sound ((OrderedMap.find rows r.1).getD null) := by
            cases hfind : OrderedMap.find rows r.1 with
            | none => exact scalar _ _
            | some v =>
              obtain ⟨s, hs, rfl⟩ := OrderedMap.mem_of_find hfind
              exact hsound s hs
          have hnew' := hassign _ _ _ hold (hcopy _ _ (hx.row r hr) hd) hnew
          refine ⟨hsorted.set, fun s hs => ?_⟩
          rcases OrderedMap.mem_set hs with rfl | hs
          · exact hnew'
          · exact hsound s hs
      | _ =>
        cases h
        exact scalar _ _
    · rintro target ⟨type, value, mapData, listData⟩ y htarget hx h
      cases type with
      | map =>
        obtain ⟨out, hout, h⟩ := Option.bind_eq_some_iff.mp h
        cases h
        have hall := forall₂_of_mapM (R := fun r s : Bytes × AutoData =>
          s.1 = r.1 ∧ Sound s.2) ?_ hout
        · obtain ⟨hkeys, hsound⟩ := rows_of_forall₂ hall
          exact .mk (hx.sorted.of_keys hkeys) hsound htarget.item
        · intro r hr s hs
          obtain ⟨new, hnew, hs⟩ := Option.bind_eq_some_iff.mp hs
          cases hs
          refine ⟨rfl, ?_⟩
          cases hreused : reused reuse target r.1 with
          | none =>
            rw [hreused] at hnew
            exact hcopy _ _ (hx.row r hr) hnew
          | some old =>
            rw [hreused] at hnew
            obtain ⟨s, hs, rfl⟩ := mem_of_reused hreused
            exact hassign _ _ _ (htarget.row s hs) (hx.row r hr) hnew
      | _ =>
        cases h
        exact .mk htarget.sorted htarget.row htarget.item

/-- **`push_back`** keeps it. -/
theorem pushBack {moves : Bool} (hx : Sound x) (hy : Sound y) {z : AutoData}
    (h : AutoData.pushBack reuse fuel moves x y = some z) : Sound z := by
  obtain ⟨hcopy, -⟩ := copy_assign reuse fuel
  obtain ⟨new, hnew, h⟩ := Option.bind_eq_some_iff.mp h
  obtain ⟨items, hitems, h⟩ := Option.bind_eq_some_iff.mp h
  cases h
  have hold : ∀ y ∈ items, Sound y := by
    rw [moveItems] at hitems
    split_ifs at hitems with hmoves
    · have hall := forall₂_of_mapM (R := fun _ y : AutoData => Sound y)
        (fun w hw y hy => hcopy w y (hx.item w hw) hy) hitems
      intro y hy
      obtain ⟨w, -, hw⟩ := forall₂_exists_of_mem hall hy
      exact hw
    · cases hitems
      exact hx.item
  refine .mk hx.sorted hx.row fun w hw => ?_
  rcases List.mem_append.mp hw with hw | hw
  · exact hold w hw
  · rw [List.mem_singleton.mp hw]
    exact hcopy _ _ hy hnew

end Sound

end AutoData

end Sails.Base
