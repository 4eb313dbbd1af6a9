import Mathlib.Data.List.Nodup
import Mathlib.Logic.Function.Basic

/-!
# Lists linked through the things in them

A list of nodes is given by its head and by the link of each node. `Chain` says that a head leads
through certain nodes to the null pointer; `Reaches` says that it leads to a node, whatever comes
behind it.

- `Chain.congr`: links of other nodes may change
- `Chain.push`: a node is put in front
- `Chain.reaches_iff`: what a chain reaches
- `thread`: the loop that links nodes one after the other
-/

namespace ForwardList

variable {ρ : Type*} {link link' : ρ → Option ρ} {head : Option ρ} {p q : ρ} {l : List ρ}

/-- The head leads through the nodes of the list to the null pointer. -/
def Chain (link : ρ → Option ρ) : Option ρ → List ρ → Prop
  | head, [] => head = none
  | head, p :: l => head = some p ∧ Chain link (link p) l

/-- The head leads to the node. -/
inductive Reaches (link : ρ → Option ρ) : Option ρ → ρ → Prop where
  | here (p : ρ) : Reaches link (some p) p
  | behind {p q : ρ} (h : Reaches link (link p) q) : Reaches link (some p) q

theorem Chain.eq_nil (h : Chain link none l) : l = [] := by
  cases l with
  | nil => rfl
  | cons => cases h.1

/-- The first node of a chain that is not empty. -/
theorem Chain.pop (h : Chain link (some p) l) : ∃ rest, l = p :: rest ∧ Chain link (link p) rest := by
  cases l with
  | nil => cases h
  | cons q rest =>
    obtain ⟨hq, hrest⟩ := h
    cases hq
    exact ⟨rest, rfl, hrest⟩

/-- Only the links of its nodes matter to a chain. -/
theorem Chain.congr (h : Chain link head l) (hlink : ∀ p ∈ l, link' p = link p) :
    Chain link' head l := by
  induction l generalizing head with
  | nil => exact h
  | cons p l ih =>
    obtain ⟨hhead, hrest⟩ := h
    refine ⟨hhead, ?_⟩
    rw [hlink p (List.mem_cons_self ..)]
    exact ih hrest fun q hq => hlink q (List.mem_cons_of_mem _ hq)

variable [DecidableEq ρ]

/-- The link of another node changes. -/
theorem Chain.update (h : Chain link head l) (hp : p ∉ l) (v : Option ρ) :
    Chain (Function.update link p v) head l := by
  apply h.congr
  intro q hq
  apply Function.update_of_ne
  rintro rfl
  exact hp hq

/-- A node is put in front of the others. -/
theorem Chain.push (h : Chain link head l) (hp : p ∉ l) :
    Chain (Function.update link p head) (some p) (p :: l) := by
  refine ⟨rfl, ?_⟩
  rw [Function.update_self]
  exact h.update hp head

omit [DecidableEq ρ] in
/-- A head reaches the nodes of its chain. -/
theorem Chain.reaches_iff (h : Chain link head l) : Reaches link head q ↔ q ∈ l := by
  -- on the chain: a node reached is the first one, or reached from its link
  induction l generalizing head with
  | nil =>
    cases h
    exact ⟨fun hq => (nomatch hq), fun hq => nomatch hq⟩
  | cons p l ih =>
    obtain ⟨rfl, hrest⟩ := h
    rw [List.mem_cons]
    constructor
    · rintro (_ | hq)
      · exact .inl rfl
      · exact .inr ((ih hrest).mp (by assumption))
    · rintro (rfl | hq)
      · exact .here _
      · exact .behind ((ih hrest).mpr hq)

/-! ## A loop that makes a chain -/

/-- Link each of the nodes to the one before it, and let the last one end the list. -/
def thread (link : ρ → Option ρ) : ρ → List ρ → ρ → Option ρ
  | _, [] => link
  | pre, p :: l => thread (Function.update (Function.update link p none) pre (some p)) p l

/-- Other nodes keep their links. -/
theorem thread_other {pre : ρ} (hpre : q ≠ pre) (hq : q ∉ l) : thread link pre l q = link q := by
  induction l generalizing link pre with
  | nil => rfl
  | cons p l ih =>
    obtain ⟨hqp, hql⟩ := List.ne_and_not_mem_of_not_mem_cons hq
    -- a round writes the links of the two nodes it joins
    rw [thread, ih hqp hql, Function.update_of_ne hpre, Function.update_of_ne hqp]

theorem chain_thread {pre : ρ} (hnodup : (pre :: l).Nodup) (hlast : link pre = none) :
    Chain (thread link pre l) (some pre) (pre :: l) := by
  induction l generalizing link pre with
  | nil => exact ⟨rfl, hlast⟩
  | cons p l ih =>
    obtain ⟨hpre, hrest⟩ := List.nodup_cons.mp hnodup
    obtain ⟨hprep, hprel⟩ := List.ne_and_not_mem_of_not_mem_cons hpre
    refine ⟨rfl, ?_⟩
    -- the link of `pre` is written in this round and never again
    rw [thread, thread_other hprep hprel, Function.update_self]
    -- the rest is a chain from `p`, whose link is still null
    apply ih hrest
    rw [Function.update_of_ne (Ne.symm hprep), Function.update_self]

end ForwardList
