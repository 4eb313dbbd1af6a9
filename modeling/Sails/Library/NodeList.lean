import Mathlib.Data.List.Nodup
import Mathlib.Data.List.Basic

/-!
# A linked list and the pointers into it

The nodes of a linked list are memory: a pointer kept while the list changes may be followed as
long as its node has not been released. A node is known by its address, the number of nodes
allocated before it, so that an address is never given out twice, and a pointer to a node released
never is one to a later node.

- `read`, `next`: what is reached through a pointer; `none` when its node is gone
- `push`, `only`, `clear`, `restrict`: nodes linked and released
- `read_of_split`, `next_of_split`: a walk of the list, position by position
-/

/-- The nodes of a list, in order. -/
structure NodeList (α : Type*) where
  cells : List (Nat × α)
  allocated : Nat
  nodup : (cells.map Prod.fst).Nodup
  lt_allocated : ∀ n ∈ cells.map Prod.fst, n < allocated

namespace NodeList

variable {α : Type*} {l : NodeList α} {n : Nat} {v : α}

def addresses (l : NodeList α) : List Nat := l.cells.map Prod.fst

def values (l : NodeList α) : List α := l.cells.map Prod.snd

/-! ## Following pointers -/

/-- The pointer to the list. -/
def first (l : NodeList α) : Option Nat := l.addresses.head?

/-- The value of a node. -/
def read (l : NodeList α) (n : Nat) : Option α :=
  (l.cells.find? fun c => c.1 = n).map Prod.snd

/-- The link of the node with an address. -/
def nextIn (n : Nat) : List (Nat × α) → Option (Option Nat)
  | [] => none
  | c :: cs => if c.1 = n then some (cs.head?.map Prod.fst) else nextIn n cs

/-- The link of a node: `some none` is the null pointer behind the last one. -/
def next (l : NodeList α) (n : Nat) : Option (Option Nat) := nextIn n l.cells

theorem read_of_split {pre post : List (Nat × α)} (h : l.cells = pre ++ (n, v) :: post) :
    l.read n = some v := by
  have hnodup := l.nodup
  -- the addresses are different, so `find?` stops at the node
  rw [h, List.map_append, List.map_cons, List.nodup_append] at hnodup
  -- no node in front has this address
  have hpre : pre.find? (fun c => c.1 = n) = none := by
    refine List.find?_eq_none.mpr fun c hc hcn => ?_
    exact hnodup.2.2 c.1 (List.mem_map_of_mem hc) n (List.mem_cons_self ..) (of_decide_eq_true hcn)
  rw [read, h, List.find?_append, hpre, List.find?_cons_of_pos (by simp)]
  rfl

theorem nextIn_of_split {pre post : List (Nat × α)} (h : n ∉ pre.map Prod.fst) :
    nextIn n (pre ++ (n, v) :: post) = some (post.head?.map Prod.fst) := by
  induction pre with
  | nil => exact if_pos rfl
  | cons c pre ih =>
    rw [List.map_cons, List.mem_cons, not_or] at h
    rw [List.cons_append, nextIn, if_neg (Ne.symm h.1)]
    exact ih h.2

theorem next_of_split {pre post : List (Nat × α)} (h : l.cells = pre ++ (n, v) :: post) :
    l.next n = some (post.head?.map Prod.fst) := by
  have hnodup := l.nodup
  rw [h, List.map_append, List.map_cons, List.nodup_append] at hnodup
  rw [next, h]
  exact nextIn_of_split fun hmem => hnodup.2.2 n hmem n (List.mem_cons_self ..) rfl

theorem exists_split (h : n ∈ l.addresses) : ∃ pre v post, l.cells = pre ++ (n, v) :: post := by
  obtain ⟨⟨n', v⟩, hmem, rfl⟩ := List.mem_map.mp h
  obtain ⟨pre, post, hsplit⟩ := List.append_of_mem hmem
  exact ⟨pre, v, post, hsplit⟩

theorem read_eq_some_iff : l.read n = some v ↔ (n, v) ∈ l.cells := by
  constructor
  · intro h
    obtain ⟨c, hfind, rfl⟩ := Option.map_eq_some_iff.mp h
    have hn : c.1 = n := by simpa using List.find?_some hfind
    rw [← hn]
    exact List.mem_of_find?_eq_some hfind
  · intro h
    obtain ⟨pre, post, hsplit⟩ := List.append_of_mem h
    exact read_of_split hsplit

theorem mem_values (h : l.read n = some v) : v ∈ l.values :=
  List.mem_map_of_mem (read_eq_some_iff.mp h)

theorem mem_addresses_of_read (h : l.read n = some v) : n ∈ l.addresses :=
  List.mem_map_of_mem (read_eq_some_iff.mp h)

/-- The link of a node can be followed as long as the node is there. -/
theorem next_eq_none_iff : l.next n = none ↔ n ∉ l.addresses := by
  constructor
  · intro hnone hmem
    obtain ⟨pre, v, post, hsplit⟩ := exists_split hmem
    rw [next_of_split hsplit] at hnone
    cases hnone
  -- by induction on the nodes that are passed
  · have hin : ∀ cs : List (Nat × α), n ∉ cs.map Prod.fst → nextIn n cs = none := by
      intro cs hcs
      induction cs with
      | nil => rfl
      | cons c cs ih =>
        rw [List.map_cons, List.mem_cons, not_or] at hcs
        rw [nextIn, if_neg (Ne.symm hcs.1)]
        exact ih hcs.2
    exact hin l.cells

/-- A link leads to a node of the list. -/
theorem mem_of_next {m : Nat} (h : l.next n = some (some m)) : m ∈ l.addresses := by
  have hmem : n ∈ l.addresses := by
    by_contra hnot
    rw [next_eq_none_iff.mpr hnot] at h
    cases h
  obtain ⟨pre, v, post, hsplit⟩ := exists_split hmem
  rw [next_of_split hsplit] at h
  -- the link is to the node behind, if there is one
  cases post with
  | nil => cases h
  | cons c post =>
    cases h
    rw [addresses, hsplit]
    simp

/-! ## Linking and releasing -/

/-- Link a new node behind the last one. -/
def push (l : NodeList α) (v : α) : NodeList α where
  cells := l.cells ++ [(l.allocated, v)]
  allocated := l.allocated + 1
  nodup := by
    rw [List.map_append, List.map_singleton, ← List.concat_eq_append]
    exact l.nodup.concat fun hmem => Nat.lt_irrefl _ (l.lt_allocated _ hmem)
  lt_allocated n hn := by
    rw [List.map_append, List.map_singleton, List.mem_append, List.mem_singleton] at hn
    rcases hn with hmem | rfl
    · exact Nat.lt_succ_of_lt (l.lt_allocated n hmem)
    · exact Nat.lt_succ_self _

/-- Release all nodes, and link a new one. -/
def only (l : NodeList α) (v : α) : NodeList α where
  cells := [(l.allocated, v)]
  allocated := l.allocated + 1
  nodup := List.nodup_singleton _
  lt_allocated n hn := by
    rw [List.map_singleton, List.mem_singleton] at hn
    exact hn ▸ Nat.lt_succ_self _

/-- Release all nodes. -/
def clear (l : NodeList α) : NodeList α where
  cells := []
  allocated := l.allocated
  nodup := List.nodup_nil
  lt_allocated _ hn := absurd hn List.not_mem_nil

/-- Release some nodes, and write to others. -/
def restrict (l : NodeList α) (cells : List (Nat × α))
    (h : (cells.map Prod.fst).Sublist l.addresses) : NodeList α where
  cells := cells
  allocated := l.allocated
  nodup := h.nodup l.nodup
  lt_allocated n hn := l.lt_allocated n (h.subset hn)

/-- A list of new nodes. -/
def ofList (vs : List α) : NodeList α where
  cells := (List.range vs.length).zip vs
  allocated := vs.length
  nodup := by
    rw [List.map_fst_zip (by simp)]
    exact List.nodup_range
  lt_allocated n hn := by
    rw [List.map_fst_zip (by simp)] at hn
    exact List.mem_range.mp hn

@[simp] theorem values_push (l : NodeList α) (v : α) : (l.push v).values = l.values ++ [v] := by
  simp [values, push]

@[simp] theorem values_ofList (vs : List α) : (ofList vs).values = vs :=
  List.map_snd_zip (by simp)

@[simp] theorem addresses_push (l : NodeList α) (v : α) :
    (l.push v).addresses = l.addresses ++ [l.allocated] := by
  simp [addresses, push]

end NodeList
