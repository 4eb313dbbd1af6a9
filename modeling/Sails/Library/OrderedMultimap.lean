import Sails.Library.Run
import Mathlib.Order.Lattice
import Mathlib.Data.List.Nodup
import Mathlib.Data.List.Perm.Basic
import Mathlib.Data.List.TakeWhile

/-!
# Ordered multimaps with stable iterators

`std::multimap`: entries sorted by key, several entries with one key in the order they were
inserted, and iterators that stay valid while other entries come and go. An iterator is
modelled by a number that no other entry ever gets; the order of the entries and the
freshness of the numbers are part of the type.

- `insert`: behind every entry whose key is not greater; the new entry's iterator
- `erase`: remove the entry an iterator points to; a dangling iterator is a fault
- `upTo`: the entries a loop from `begin()` meets before the first key greater than a bound
-/

open TransitionRun (Fault)

/-- An entry of a multimap, with the number its iterators carry. -/
structure MultimapEntry (κ ν : Type*) where
  iter : Nat
  key : κ
  value : ν
  deriving DecidableEq

/-- A multimap sorted by key. -/
structure OrderedMultimap (κ ν : Type*) [LinearOrder κ] where
  entries : List (MultimapEntry κ ν)
  nextIter : Nat
  sorted : entries.Pairwise fun a b => a.key ≤ b.key
  iters_nodup : (entries.map MultimapEntry.iter).Nodup
  iters_lt : ∀ e ∈ entries, e.iter < nextIter

namespace OrderedMultimap

variable {κ ν : Type*} [LinearOrder κ]

/-- The empty multimap. -/
def empty : OrderedMultimap κ ν where
  entries := []
  nextIter := 0
  sorted := .nil
  iters_nodup := .nil
  iters_lt := by simp

@[simp] theorem entries_empty : (empty : OrderedMultimap κ ν).entries = [] := rfl

/-! ## Insertion -/

/-- The entries whose keys are at most `k`: they come first. -/
def upTo (m : OrderedMultimap κ ν) (k : κ) : List (MultimapEntry κ ν) :=
  m.entries.takeWhile fun e => decide (e.key ≤ k)

/-- The entries whose keys are greater than `k`. -/
def after (m : OrderedMultimap κ ν) (k : κ) : List (MultimapEntry κ ν) :=
  m.entries.dropWhile fun e => decide (e.key ≤ k)

theorem upTo_append_after (m : OrderedMultimap κ ν) (k : κ) :
    m.upTo k ++ m.after k = m.entries := List.takeWhile_append_dropWhile

theorem key_le_of_mem_upTo {m : OrderedMultimap κ ν} {k : κ} {e : MultimapEntry κ ν}
    (h : e ∈ m.upTo k) : e.key ≤ k := by
  simpa using List.mem_takeWhile_imp h

theorem lt_key_of_mem_after {m : OrderedMultimap κ ν} {k : κ} {e : MultimapEntry κ ν}
    (h : e ∈ m.after k) : k < e.key := by
  have hsorted : (m.after k).Pairwise fun a b => a.key ≤ b.key :=
    m.sorted.sublist (List.dropWhile_sublist _)
  cases hafter : m.after k with
  | nil => simp [hafter] at h
  | cons a rest =>
    -- the first of them failed the test, the others have keys that are no smaller
    have hfirst : k < a.key := by
      have hhead : (m.after k).head? = some a := by rw [hafter]; rfl
      have hnot := List.head?_dropWhile_not (fun e => decide (e.key ≤ k)) m.entries
      rw [after] at hhead
      rw [hhead] at hnot
      simpa using hnot
    rw [hafter] at h hsorted
    rcases List.mem_cons.mp h with rfl | hrest
    · exact hfirst
    · exact hfirst.trans_le (List.rel_of_pairwise_cons hsorted hrest)

theorem mem_upTo {m : OrderedMultimap κ ν} {k : κ} {e : MultimapEntry κ ν} :
    e ∈ m.upTo k ↔ e ∈ m.entries ∧ e.key ≤ k := by
  constructor
  · intro h
    exact ⟨(List.takeWhile_sublist _).subset h, key_le_of_mem_upTo h⟩
  · rintro ⟨hmem, hle⟩
    rw [← m.upTo_append_after k] at hmem
    rcases List.mem_append.mp hmem with h | h
    · exact h
    · exact absurd hle (not_le.mpr (lt_key_of_mem_after h))

/-- `insert`: the multimap and the iterator of the new entry. -/
def insert (m : OrderedMultimap κ ν) (k : κ) (v : ν) : OrderedMultimap κ ν × Nat :=
  ({ entries := m.upTo k ++ ⟨m.nextIter, k, v⟩ :: m.after k
     nextIter := m.nextIter + 1
     sorted := by
      have hsorted := m.sorted
      rw [← m.upTo_append_after k, List.pairwise_append] at hsorted
      obtain ⟨hbefore, hbehind, hcross⟩ := hsorted
      refine List.pairwise_append.mpr ⟨hbefore, List.pairwise_cons.mpr ⟨?_, hbehind⟩, ?_⟩
      · intro e he
        exact (lt_key_of_mem_after he).le
      · intro a ha b hb
        rcases List.mem_cons.mp hb with rfl | hb
        · exact key_le_of_mem_upTo ha
        · exact hcross a ha b hb
     iters_nodup := by
      have hperm : (m.upTo k ++ ⟨m.nextIter, k, v⟩ :: m.after k).Perm
          (⟨m.nextIter, k, v⟩ :: m.entries) := by
        rw [← m.upTo_append_after k]
        exact List.perm_middle
      refine (hperm.map _).nodup_iff.mpr (List.nodup_cons.mpr ⟨?_, m.iters_nodup⟩)
      intro hmem
      obtain ⟨e, he, heq⟩ := List.mem_map.mp hmem
      exact absurd heq (Nat.ne_of_lt (m.iters_lt e he))
     iters_lt := by
      intro e he
      rcases List.mem_append.mp he with he | he
      · exact Nat.lt_succ_of_lt (m.iters_lt e (mem_upTo.mp he).1)
      · rcases List.mem_cons.mp he with rfl | he
        · exact Nat.lt_succ_self _
        · exact Nat.lt_succ_of_lt
            (m.iters_lt e ((List.dropWhile_sublist _).subset he)) }, m.nextIter)

theorem mem_insert {m : OrderedMultimap κ ν} {k : κ} {v : ν} {e : MultimapEntry κ ν} :
    e ∈ (m.insert k v).1.entries ↔ e = ⟨m.nextIter, k, v⟩ ∨ e ∈ m.entries := by
  have hsplit : e ∈ m.entries ↔ e ∈ m.upTo k ∨ e ∈ m.after k := by
    rw [← List.mem_append, m.upTo_append_after k]
  simp only [insert, List.mem_append, List.mem_cons, hsplit]
  tauto

@[simp] theorem insert_iter (m : OrderedMultimap κ ν) (k : κ) (v : ν) :
    (m.insert k v).2 = m.nextIter := rfl

/-! ## Erasure -/

/-- `erase(it)`. -/
def erase (m : OrderedMultimap κ ν) (it : Nat) : Except Fault (OrderedMultimap κ ν) :=
  if it ∈ m.entries.map MultimapEntry.iter then
    .ok { entries := m.entries.filter fun e => decide (e.iter ≠ it)
          nextIter := m.nextIter
          sorted := m.sorted.sublist List.filter_sublist
          iters_nodup := m.iters_nodup.sublist (List.filter_sublist.map _)
          iters_lt := fun e he => m.iters_lt e (List.mem_of_mem_filter he) }
  else .error .dangling

/-- Erasing the entry of a valid iterator removes that entry and no other. -/
theorem erase_spec {m : OrderedMultimap κ ν} {it : Nat}
    (h : ∃ e ∈ m.entries, e.iter = it) :
    ∃ m', m.erase it = .ok m' ∧ m'.nextIter = m.nextIter ∧
      ∀ e, e ∈ m'.entries ↔ e ∈ m.entries ∧ e.iter ≠ it := by
  have hmem : it ∈ m.entries.map MultimapEntry.iter := by
    obtain ⟨e, he, heq⟩ := h
    exact List.mem_map.mpr ⟨e, he, heq⟩
  rw [erase, if_pos hmem]
  refine ⟨_, rfl, rfl, ?_⟩
  intro e
  simp [List.mem_filter]

/-- Entries with the same iterator are the same. -/
theorem eq_of_iter_eq {m : OrderedMultimap κ ν} {a b : MultimapEntry κ ν} (ha : a ∈ m.entries)
    (hb : b ∈ m.entries) (h : a.iter = b.iter) : a = b :=
  List.inj_on_of_nodup_map m.iters_nodup ha hb h

end OrderedMultimap
