import Mathlib.Data.List.Dedup
import Mathlib.Data.List.Induction
import Mathlib.Data.List.Perm.Subperm

/-!
# Rows with keys that count as the same

A table is a list of rows, a key and a value each. Two keys are the same when `fold` takes them to
one thing, as names do that differ in letter case only. Writing a value under a key changes the
rows of that key, or adds a row at the end.

- `put`, `puts`: one value written, and several from an empty table on
- `keys_puts`: the rows are one for each key, in the order and with the spelling of its first value
- `lastValue_of_mem_puts`: the value of a row is the last one written under its key
-/

namespace KeyedRows

variable {κ ν ι : Type*} [DecidableEq ι] {fold : κ → ι}

/-- Write a value under a key. -/
def put (fold : κ → ι) (rows : List (κ × ν)) (k : κ) (v : ν) : List (κ × ν) :=
  if rows.any fun r => decide (fold r.1 = fold k) then
    rows.map fun r => if fold r.1 = fold k then (r.1, v) else r
  else rows ++ [(k, v)]

/-- Write these values, in order, into an empty table. -/
def puts (fold : κ → ι) (writes : List (κ × ν)) : List (κ × ν) :=
  writes.foldl (fun rows w => put fold rows w.1 w.2) []

/-- The keys written, each where and as it was written first. -/
def firstKeys (fold : κ → ι) (writes : List (κ × ν)) : List κ :=
  writes.foldl
    (fun ks w => if ks.any fun k => decide (fold k = fold w.1) then ks else ks ++ [w.1]) []

/-- The value written last under a key. -/
def lastValue (fold : κ → ι) (writes : List (κ × ν)) (k : κ) : Option ν :=
  writes.foldl (fun v w => if fold w.1 = fold k then some w.2 else v) none

theorem puts_concat (writes : List (κ × ν)) (w : κ × ν) :
    puts fold (writes ++ [w]) = put fold (puts fold writes) w.1 w.2 := by
  rw [puts, List.foldl_append]
  rfl

theorem firstKeys_concat (writes : List (κ × ν)) (w : κ × ν) :
    firstKeys fold (writes ++ [w]) =
      if (firstKeys fold writes).any fun k => decide (fold k = fold w.1) then firstKeys fold writes
      else firstKeys fold writes ++ [w.1] := by
  rw [firstKeys, List.foldl_append]
  rfl

theorem lastValue_concat (writes : List (κ × ν)) (w : κ × ν) (k : κ) :
    lastValue fold (writes ++ [w]) k =
      if fold w.1 = fold k then some w.2 else lastValue fold writes k := by
  rw [lastValue, List.foldl_append]
  rfl

/-! ## The keys of a table -/

/-- Writing changes no key. -/
theorem keys_put (rows : List (κ × ν)) (k : κ) (v : ν) :
    (put fold rows k v).map Prod.fst =
      if (rows.map Prod.fst).any fun k' => decide (fold k' = fold k) then rows.map Prod.fst
      else rows.map Prod.fst ++ [k] := by
  have hany : ((rows.map Prod.fst).any fun k' => decide (fold k' = fold k)) =
      rows.any fun r => decide (fold r.1 = fold k) := List.any_map
  rw [hany, put]
  split
  · rw [List.map_map]
    refine List.map_congr_left fun r _ => ?_
    rw [Function.comp_apply]
    split <;> rfl
  · rw [List.map_append]
    rfl

/-- **Order and spelling**: the rows stand in the order in which their keys were written first, with
the keys as they were then. -/
theorem keys_puts (writes : List (κ × ν)) :
    (puts fold writes).map Prod.fst = firstKeys fold writes := by
  induction writes using List.reverseRecOn with
  | nil => rfl
  | append_singleton writes w ih => rw [puts_concat, keys_put, ih, firstKeys_concat]

/-- **One row a key**. -/
theorem nodup_firstKeys (writes : List (κ × ν)) : ((firstKeys fold writes).map fold).Nodup := by
  induction writes using List.reverseRecOn with
  | nil => exact .nil
  | append_singleton writes w ih =>
    rw [firstKeys_concat]
    split
    · exact ih
    · rename_i hnew
      rw [List.map_append, List.nodup_append]
      refine ⟨ih, List.nodup_singleton _, ?_⟩
      intro i hi j hj hij
      obtain ⟨k, hk, rfl⟩ := List.mem_map.mp hi
      rw [List.map_singleton, List.mem_singleton] at hj
      exact hnew (List.any_eq_true.mpr ⟨k, hk, decide_eq_true (hij.trans hj)⟩)

/-- **Each key has a row**, and no other has. -/
theorem mem_firstKeys (writes : List (κ × ν)) (i : ι) :
    i ∈ (firstKeys fold writes).map fold ↔ i ∈ writes.map fun w => fold w.1 := by
  induction writes using List.reverseRecOn with
  | nil => exact Iff.rfl
  | append_singleton writes w ih =>
    rw [firstKeys_concat, List.map_append, List.mem_append, ← ih, List.map_singleton,
      List.mem_singleton]
    split
    · rename_i hold
      obtain ⟨k, hk, hsame⟩ := List.any_eq_true.mp hold
      refine (or_iff_left_of_imp ?_).symm
      rintro rfl
      exact List.mem_map.mpr ⟨k, hk, of_decide_eq_true hsame⟩
    · rw [List.map_append, List.mem_append, List.map_singleton, List.mem_singleton]

/-- There are as many rows as different keys. -/
theorem length_puts (writes : List (κ × ν)) :
    (puts fold writes).length = (writes.map fun w => fold w.1).dedup.length := by
  have hperm : ((firstKeys fold writes).map fold).Perm (writes.map fun w => fold w.1).dedup := by
    refine (List.perm_ext_iff_of_nodup (nodup_firstKeys writes) (List.nodup_dedup _)).mpr fun i => ?_
    rw [mem_firstKeys, List.mem_dedup]
  rw [← hperm.length_eq, List.length_map, ← keys_puts, List.length_map]

/-! ## The values of a table -/

/-- **Last value**: a row has the value written last under its key. -/
theorem lastValue_of_mem_puts {writes : List (κ × ν)} {r : κ × ν} (h : r ∈ puts fold writes) :
    lastValue fold writes r.1 = some r.2 := by
  induction writes using List.reverseRecOn generalizing r with
  | nil => cases h
  | append_singleton writes w ih =>
    rw [puts_concat, put] at h
    rw [lastValue_concat]
    split at h
    · obtain ⟨r', hr', rfl⟩ := List.mem_map.mp h
      by_cases hsame : fold r'.1 = fold w.1
      · rw [if_pos hsame, if_pos hsame.symm]
      · rw [if_neg hsame, if_neg (Ne.symm hsame)]
        exact ih hr'
    · rename_i hnew
      rcases List.mem_append.mp h with hold | hlast
      · have hne : fold w.1 ≠ fold r.1 := by
          intro hsame
          exact hnew (List.any_eq_true.mpr ⟨r, hold, decide_eq_true hsame.symm⟩)
        rw [if_neg hne]
        exact ih hold
      · rw [List.mem_singleton.mp hlast, if_pos rfl]

end KeyedRows
