import Sails.Library.ForwardList

/-!
# Doubly linked lists behind a first node

`Linked pre next p l` says that the nodes of `l` follow `p`, each with its predecessor as `pre` and
its successor as `next`, and that the last one has no successor.

- `Linked.append`: a node is put behind the last one
- `Linked.remove`: a node is taken out
- `Linked.chain`: forwards it is a chain
-/

namespace DoublyLinked

open ForwardList (Chain)

variable {ρ : Type*} {pre next pre' next' : ρ → Option ρ} {p x : ρ} {l r : List ρ}

/-- The nodes of the list follow `p`. -/
def Linked (pre next : ρ → Option ρ) : ρ → List ρ → Prop
  | p, [] => next p = none
  | p, x :: l => next p = some x ∧ pre x = some p ∧ Linked pre next x l

/-- Forwards, the nodes are a chain. -/
theorem Linked.chain (h : Linked pre next p l) : Chain next (next p) l := by
  induction l generalizing p with
  | nil => exact h
  | cons x l ih => exact ⟨h.1, ih h.2.2⟩

/-- Only the links of its nodes matter. -/
theorem Linked.congr (h : Linked pre next p l) (hnext : ∀ q ∈ p :: l, next' q = next q)
    (hpre : ∀ q ∈ l, pre' q = pre q) : Linked pre' next' p l := by
  induction l generalizing p with
  | nil => exact (hnext p (List.mem_cons_self ..)).trans h
  | cons x l ih =>
    obtain ⟨hp, hx, hrest⟩ := h
    refine ⟨(hnext p (List.mem_cons_self ..)).trans hp, (hpre x (List.mem_cons_self ..)).trans hx, ?_⟩
    exact ih hrest (fun q hq => hnext q (List.mem_cons_of_mem _ hq))
      fun q hq => hpre q (List.mem_cons_of_mem _ hq)

/-- A node of the list has a predecessor. -/
theorem Linked.pre_isSome (h : Linked pre next p l) (hx : x ∈ l) : (pre x).isSome := by
  induction l generalizing p with
  | nil => exact nomatch hx
  | cons y l ih =>
    obtain ⟨-, hy, hrest⟩ := h
    rcases List.mem_cons.mp hx with rfl | hx
    · rw [hy]
      rfl
    · exact ih hrest hx

/-- The neighbours of a node. -/
theorem Linked.neighbours (h : Linked pre next p (l ++ x :: r)) :
    pre x = some (l.getLastD p) ∧ next x = r.head? := by
  induction l generalizing p with
  | nil =>
    obtain ⟨-, hx, hrest⟩ := h
    refine ⟨hx, ?_⟩
    cases r with
    | nil => exact hrest
    | cons q r => exact hrest.1
  | cons y l ih =>
    rw [List.getLastD_cons]
    exact ih h.2.2

variable [DecidableEq ρ]

/-- A node is put behind the last one. -/
theorem Linked.append (h : Linked pre next p l) (hnodup : (p :: l).Nodup) (hx : x ∉ p :: l)
    (hnull : next x = none) :
    Linked (Function.update pre x (some (l.getLastD p)))
      (Function.update next (l.getLastD p) (some x)) p (l ++ [x]) := by
  induction l generalizing p with
  | nil =>
    have hne : x ≠ p := fun heq => hx (heq ▸ List.mem_cons_self ..)
    refine ⟨Function.update_self .., Function.update_self .., ?_⟩
    change Function.update next p (some x) x = none
    rwa [Function.update_of_ne hne]
  | cons y l ih =>
    obtain ⟨hp, hy, hrest⟩ := h
    obtain ⟨hmem, hnodup'⟩ := List.nodup_cons.mp hnodup
    have hx' : x ∉ y :: l := fun hmem' => hx (List.mem_cons_of_mem _ hmem')
    have hxy : y ≠ x := fun heq => hx' (heq ▸ List.mem_cons_self ..)
    rw [List.getLastD_cons]
    -- the last node is behind `p`
    have hlast : p ≠ l.getLastD y := by
      intro heq
      rw [heq] at hmem
      exact hmem (List.getLastD_mem_cons ..)
    refine ⟨?_, ?_, ih hrest hnodup' hx'⟩
    · rwa [Function.update_of_ne hlast]
    · rwa [Function.update_of_ne hxy]

/-- The `pre` of the node behind `x`, if there is one, becomes that of `x`. -/
def bridge (pre : ρ → Option ρ) (x : ρ) : Option ρ → ρ → Option ρ
  | none => pre
  | some q => Function.update pre q (pre x)

/-- A node is taken out: its neighbours are joined and its own links cleared. -/
theorem Linked.remove (h : Linked pre next p (l ++ x :: r)) (hnodup : (p :: (l ++ x :: r)).Nodup) :
    Linked (Function.update (bridge pre x (next x)) x none)
      (Function.update (Function.update next (l.getLastD p) (next x)) x none) p (l ++ r) := by
  induction l generalizing p with
  | nil =>
    obtain ⟨hp, hx, hrest⟩ := h
    simp only [List.nil_append, List.nodup_cons, List.mem_cons, not_or] at hnodup
    obtain ⟨⟨hpx, hpr⟩, hxr, hr⟩ := hnodup
    rw [List.nil_append, List.getLastD_nil]
    cases r with
    | nil =>
      change Function.update (Function.update next p (next x)) x none p = none
      rw [Function.update_of_ne hpx, Function.update_self]
      exact hrest
    | cons q r =>
      obtain ⟨hq, -, hrest'⟩ := hrest
      rw [List.mem_cons, not_or] at hpr hxr
      rw [List.nodup_cons] at hr
      rw [hq, bridge]
      refine ⟨?_, ?_, hrest'.congr ?_ ?_⟩
      · rw [Function.update_of_ne hpx, Function.update_self]
      · rw [Function.update_of_ne (Ne.symm hxr.1), Function.update_self, hx]
      · intro y hy
        have hyx : y ≠ x := by
          rintro rfl
          exact (List.mem_cons.mp hy).elim hxr.1 hxr.2
        have hyp : y ≠ p := by
          rintro rfl
          exact (List.mem_cons.mp hy).elim hpr.1 hpr.2
        rw [Function.update_of_ne hyx, Function.update_of_ne hyp]
      · intro y hy
        have hyx : y ≠ x := fun heq => hxr.2 (heq ▸ hy)
        have hyq : y ≠ q := fun heq => hr.1 (heq ▸ hy)
        rw [Function.update_of_ne hyx, Function.update_of_ne hyq]
  | cons y l ih =>
    obtain ⟨hp, hy, hrest⟩ := h
    obtain ⟨hmem, hnodup'⟩ := List.nodup_cons.mp hnodup
    obtain ⟨-, hnextx⟩ := hrest.neighbours
    rw [List.cons_append, List.getLastD_cons]
    -- `p` is in front of the two nodes whose `next` changes
    have hlast : p ≠ l.getLastD y := by
      rintro heq
      have hmem' : l.getLastD y ∈ y :: l := List.getLastD_mem_cons ..
      rw [← heq] at hmem'
      exact hmem (List.mem_append_left (x :: r) hmem')
    have hpx : p ≠ x := by
      rintro rfl
      exact hmem (by simp)
    have hyx : y ≠ x := by
      rintro rfl
      exact (List.nodup_cons.mp hnodup').1 (by simp)
    refine ⟨?_, ?_, ih hrest hnodup'⟩
    · rwa [Function.update_of_ne hpx, Function.update_of_ne hlast]
    -- and `y` is in front of the node whose `pre` changes
    · rw [Function.update_of_ne hyx, hnextx]
      cases r with
      | nil => exact hy
      | cons q r =>
        have hyq : y ≠ q := by
          rintro rfl
          exact (List.nodup_cons.mp hnodup').1 (by simp)
        change Function.update pre q (pre x) y = some p
        rwa [Function.update_of_ne hyq]

end DoublyLinked
