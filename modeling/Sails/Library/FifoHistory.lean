import Mathlib.Data.List.Basic
import Mathlib.Data.List.Nodup

/-!
# A queue and its past

An element is known by its ticket, the number of elements accepted before it, so that equal
elements are told apart. `FifoHistory` keeps what was accepted, what was popped, which tickets were
discarded and what is there still.

- `accept`, `pop`, `clear`: what can happen to a queue
- `Conserves`: what was popped, followed by the content, is what was accepted less what was
  discarded; each operation keeps it
-/

/-- A queue with its past. -/
structure FifoHistory (α : Type*) where
  /-- in the order in which they were accepted; the index is the ticket -/
  accepted : List α
  popped : List (α × Nat)
  discarded : List Nat
  content : List (α × Nat)

namespace FifoHistory

variable {α : Type*}

def empty : FifoHistory α := ⟨[], [], [], []⟩

/-- Elements are put in at the back. -/
def accept (h : FifoHistory α) (ts : List α) : FifoHistory α :=
  { h with
    accepted := h.accepted ++ ts
    content := h.content ++ ts.zipIdx h.accepted.length }

/-- The element at the front is taken out, if there is one. -/
def pop (h : FifoHistory α) : FifoHistory α :=
  { h with
    popped := h.popped ++ h.content.take 1
    content := h.content.drop 1 }

/-- All elements are discarded. -/
def clear (h : FifoHistory α) : FifoHistory α :=
  { h with
    discarded := h.discarded ++ h.content.map Prod.snd
    content := [] }

/-- The accepted elements that were not discarded, in order. -/
def survivors (h : FifoHistory α) : List (α × Nat) :=
  h.accepted.zipIdx.filter fun e => decide (e.2 ∉ h.discarded)

/-- Nothing is lost, nothing comes twice, nothing overtakes. -/
structure Conserves (h : FifoHistory α) : Prop where
  order : h.popped ++ h.content = h.survivors
  /-- only what was accepted is discarded -/
  discarded_lt : ∀ i ∈ h.discarded, i < h.accepted.length

variable {h : FifoHistory α}

theorem conserves_empty : (empty : FifoHistory α).Conserves := ⟨rfl, fun _ hi => nomatch hi⟩

/-- Two accepted elements have different tickets. -/
theorem survivors_tickets_nodup (h : FifoHistory α) : (h.survivors.map Prod.snd).Nodup := by
  have hall : (h.accepted.zipIdx.map Prod.snd).Nodup := by
    rw [List.zipIdx_map_snd]
    exact List.nodup_range'
  exact (List.filter_sublist.map Prod.snd).nodup hall

theorem Conserves.accept (hc : h.Conserves) (ts : List α) : (h.accept ts).Conserves := by
  constructor
  -- the new tickets are too large to be among the discarded ones
  · have hnew : ((ts.zipIdx h.accepted.length).filter fun e => decide (e.2 ∉ h.discarded)) =
        ts.zipIdx h.accepted.length := by
      apply List.filter_eq_self.mpr
      intro e he
      have hle : h.accepted.length ≤ e.2 := List.le_snd_of_mem_zipIdx he
      exact decide_eq_true fun hmem => Nat.not_lt_of_le hle (hc.discarded_lt _ hmem)
    change h.popped ++ (h.content ++ _) =
      ((h.accepted ++ ts).zipIdx).filter fun e => decide (e.2 ∉ h.discarded)
    rw [List.zipIdx_append, List.filter_append, Nat.zero_add, hnew, ← List.append_assoc, hc.order]
    rfl
  · intro i hi
    change i < (h.accepted ++ ts).length
    rw [List.length_append]
    exact Nat.lt_add_right _ (hc.discarded_lt i hi)

theorem Conserves.pop (hc : h.Conserves) : h.pop.Conserves := by
  constructor
  · change h.popped ++ h.content.take 1 ++ h.content.drop 1 = h.survivors
    rw [List.append_assoc, List.take_append_drop]
    exact hc.order
  · exact hc.discarded_lt

theorem Conserves.clear (hc : h.Conserves) : h.clear.Conserves := by
  have hnodup : ((h.popped ++ h.content).map Prod.snd).Nodup := by
    rw [hc.order]
    exact h.survivors_tickets_nodup
  rw [List.map_append, List.nodup_append] at hnodup
  obtain ⟨-, -, hapart⟩ := hnodup
  constructor
  -- of the survivors so far those popped remain, and those still there do not
  · have hsplit : h.clear.survivors =
        h.survivors.filter fun e => decide (e.2 ∉ h.content.map Prod.snd) := by
      unfold survivors
      rw [List.filter_filter]
      apply List.filter_congr
      intro e _
      change decide (e.2 ∉ h.discarded ++ h.content.map Prod.snd) = _
      simp only [List.mem_append, not_or, Bool.decide_and, Bool.and_comm]
    have hpopped : (h.popped.filter fun e => decide (e.2 ∉ h.content.map Prod.snd)) = h.popped := by
      apply List.filter_eq_self.mpr
      intro e he
      exact decide_eq_true fun hmem => hapart e.2 (List.mem_map_of_mem he) e.2 hmem rfl
    have hcontent : (h.content.filter fun e => decide (e.2 ∉ h.content.map Prod.snd)) = [] := by
      apply List.filter_eq_nil_iff.mpr
      intro e he
      simpa using ⟨e.1, he⟩
    rw [hsplit, ← hc.order, List.filter_append, hpopped, hcontent]
    rfl
  · intro i hi
    rcases List.mem_append.mp hi with hold | hnew
    · exact hc.discarded_lt i hold
    · obtain ⟨e, he, rfl⟩ := List.mem_map.mp hnew
      have hmem : e ∈ h.survivors := by
        rw [← hc.order]
        exact List.mem_append_right _ he
      have hlt := List.snd_lt_of_mem_zipIdx (List.mem_of_mem_filter hmem)
      exact hlt

end FifoHistory
