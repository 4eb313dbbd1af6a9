import Sails.Library.DoublyLinked
import Sails.Library.Run

/-!
# `base::list`

A list linked through items that belong to its clients, behind an item of its own. The heap gives
every item its two links; `none` is `NULL`.

- `add`, `del`, `reset`, `next`, `forEarch`: translated from `list.h`
- `Represents`: the list holds these items in this order, and what its functions do then
- `list_represents`: it holds the items added and not deleted since
-/

namespace Sails.Base

open TransitionRun
open DoublyLinked

/-- `list_item`. -/
structure ListItem (ι : Type*) where
  pre : Option ι
  next : Option ι

/-- Both links are `NULL`, as the constructor leaves them. -/
def ListItem.detached {ι : Type*} : ListItem ι := ⟨none, none⟩

/-- `list`, with the items of all lists. -/
structure IntrusiveList (ι : Type*) where
  heap : ι → ListItem ι
  head : ι
  tail : ι
  iter : Option ι

namespace IntrusiveList

variable {ι : Type*} [DecidableEq ι]

/-- The constructor, where `malloc` gives `item`. -/
def init (heap : ι → ListItem ι) (item : ι) : IntrusiveList ι where
  heap := Function.update heap item .detached
  head := item
  tail := item
  iter := some item

/-- `p->next = v`. -/
def setNext (s : IntrusiveList ι) (p : ι) (v : Option ι) : IntrusiveList ι :=
  { s with heap := Function.update s.heap p { s.heap p with next := v } }

/-- `p->pre = v`. -/
def setPre (s : IntrusiveList ι) (p : ι) (v : Option ι) : IntrusiveList ι :=
  { s with heap := Function.update s.heap p { s.heap p with pre := v } }

/-- `add`. -/
def add (s : IntrusiveList ι) (item : ι) : IntrusiveList ι :=
  let s := s.setNext s.tail (some item)
  let s := s.setPre item (some s.tail)
  { s with tail := item }

/-- `del`, with its result. -/
def del (s : IntrusiveList ι) (item : ι) : Except Fault (IntrusiveList ι × Bool) :=
  if item = s.head then .ok (s, false)
  else
    match (s.heap item).next, (s.heap item).pre with
    | none, none => .ok (s, false)
    | some _, none => .error .nullPointer
    | next, some pre =>
      let s := s.setNext pre next
      let s :=
        match (s.heap item).next with
        | some q => s.setPre q (s.heap item).pre
        | none => { s with tail := pre }
      let s := s.setNext item none
      .ok (s.setPre item none, true)

/-- `reset`. -/
def reset (s : IntrusiveList ι) : IntrusiveList ι := { s with iter := some s.head }

/-- `next`, with its result. -/
def next (s : IntrusiveList ι) : Except Fault (IntrusiveList ι × Option ι) :=
  match s.iter with
  | none => .error .nullPointer
  | some p =>
    .ok (if p ≠ s.tail then { s with iter := (s.heap p).next } else s, (s.heap p).next)

/-- The loop of `for_earch` from `item` on: the items its callback is called with; `none` if there are
more than `fuel`. -/
def visit (s : IntrusiveList ι) : Nat → Option ι → Option (List ι)
  | _, none => some []
  | 0, some _ => none
  | fuel + 1, some p => (s.visit fuel (s.heap p).next).map (p :: ·)

/-- `for_earch`. -/
def forEarch (s : IntrusiveList ι) (fuel : Nat) : Option (List ι) :=
  s.visit fuel (s.heap s.head).next

/-! ## What the list holds -/

/-- The `next` of each item. -/
def nexts (s : IntrusiveList ι) (p : ι) : Option ι := (s.heap p).next

/-- The `pre` of each item. -/
def pres (s : IntrusiveList ι) (p : ι) : Option ι := (s.heap p).pre

/-- The item is reached from the head. -/
def Contains (s : IntrusiveList ι) (x : ι) : Prop := ForwardList.Reaches s.nexts (s.nexts s.head) x

/-- The items are linked behind the head, and `tail` is the last of them. -/
structure Holds (s : IntrusiveList ι) (items : List ι) : Prop where
  linked : Linked s.pres s.nexts s.head items
  nodup : (s.head :: items).Nodup
  tail : s.tail = items.getLastD s.head

variable {s t : IntrusiveList ι} {items l r : List ι} {p x : ι} {v : Option ι}

@[simp] theorem nexts_setNext : (s.setNext p v).nexts = Function.update s.nexts p v := by
  funext q
  by_cases hq : q = p
  · subst hq
    simp [nexts, setNext]
  · simp [nexts, setNext, Function.update_of_ne hq]

@[simp] theorem pres_setNext : (s.setNext p v).pres = s.pres := by
  funext q
  by_cases hq : q = p
  · subst hq
    simp [pres, setNext]
  · simp [pres, setNext, Function.update_of_ne hq]

@[simp] theorem nexts_setPre : (s.setPre p v).nexts = s.nexts := by
  funext q
  by_cases hq : q = p
  · subst hq
    simp [nexts, setPre]
  · simp [nexts, setPre, Function.update_of_ne hq]

@[simp] theorem pres_setPre : (s.setPre p v).pres = Function.update s.pres p v := by
  funext q
  by_cases hq : q = p
  · subst hq
    simp [pres, setPre]
  · simp [pres, setPre, Function.update_of_ne hq]

omit [DecidableEq ι] in
theorem heap_eq_detached (hpre : s.pres x = none) (hnext : s.nexts x = none) :
    s.heap x = .detached := by
  unfold pres at hpre
  unfold nexts at hnext
  cases hx : s.heap x with
  | mk pre next =>
    rw [hx] at hpre hnext
    subst hpre hnext
    rfl

omit [DecidableEq ι] in
theorem Holds.contains_iff (h : Holds s items) : s.Contains x ↔ x ∈ items :=
  h.linked.chain.reaches_iff

omit [DecidableEq ι] in
/-- A detached item is not in the list, since those in it have predecessors. -/
theorem Holds.not_mem_of_detached (h : Holds s items) (hx : s.heap x = .detached) : x ∉ items := by
  intro hmem
  have hpre := h.linked.pre_isSome hmem
  rw [pres, hx] at hpre
  exact nomatch hpre

theorem holds_init (heap : ι → ListItem ι) (item : ι) : Holds (init heap item) [] where
  linked := by
    change (Function.update heap item .detached item).next = none
    rw [Function.update_self]
    rfl
  nodup := List.nodup_singleton item
  tail := rfl

/-- **`add`** of a detached item. -/
theorem Holds.add (h : Holds s items) (hne : x ≠ s.head) (hx : s.heap x = .detached) :
    Holds (s.add x) (items ++ [x]) where
  linked := by
    have hnexts : (s.add x).nexts = Function.update s.nexts s.tail (some x) :=
      nexts_setPre.trans nexts_setNext
    have hpres : (s.add x).pres = Function.update s.pres x (some s.tail) :=
      pres_setPre.trans (congrArg (Function.update · x (some s.tail)) pres_setNext)
    have hmem : x ∉ s.head :: items := by
      rw [List.mem_cons, not_or]
      exact ⟨hne, h.not_mem_of_detached hx⟩
    rw [hnexts, hpres, h.tail]
    exact h.linked.append h.nodup hmem (congrArg ListItem.next hx)
  nodup := by
    have hmem := h.not_mem_of_detached hx
    obtain ⟨hhead, hitems⟩ := List.nodup_cons.mp h.nodup
    refine List.nodup_cons.mpr ⟨?_, ?_⟩
    · rw [List.mem_append, List.mem_singleton, not_or]
      exact ⟨hhead, Ne.symm hne⟩
    · exact List.nodup_append_comm.mp (List.nodup_cons.mpr ⟨hmem, hitems⟩)
  tail := by simp [IntrusiveList.add]

/-- **`del`** of an item that is not in the list. -/
theorem del_of_detached (hx : x = s.head ∨ s.heap x = .detached) : s.del x = .ok (s, false) := by
  unfold del
  split
  · rfl
  · rename_i hne
    rw [hx.resolve_left hne]
    rfl

theorem del_of_last (hne : x ≠ s.head) (hpre : s.pres x = some p) (hnext : s.nexts x = none)
    (hp : x ≠ p) :
    s.del x = .ok ((({ s.setNext p none with tail := p }).setNext x none).setPre x none, true) := by
  have hpre' : (s.heap x).pre = some p := hpre
  have hnext' : (s.heap x).next = none := hnext
  have hsame : ((s.setNext p none).heap x).next = none := by
    change (s.setNext p none).nexts x = none
    rw [nexts_setNext, Function.update_of_ne hp, hnext]
  simp only [del, if_neg hne, hpre', hnext', hsame]

theorem del_of_inner {q : ι} (hne : x ≠ s.head) (hpre : s.pres x = some p)
    (hnext : s.nexts x = some q) (hp : x ≠ p) :
    s.del x = .ok ((((s.setNext p (some q)).setPre q (some p)).setNext x none).setPre x none, true) := by
  have hpre' : (s.heap x).pre = some p := hpre
  have hnext' : (s.heap x).next = some q := hnext
  -- the second reading of the links gives what the first one has
  have hsame : ((s.setNext p (some q)).heap x).next = some q := by
    change (s.setNext p (some q)).nexts x = some q
    rw [nexts_setNext, Function.update_of_ne hp, hnext]
  have hsame' : ((s.setNext p (some q)).heap x).pre = some p := by
    change (s.setNext p (some q)).pres x = some p
    rw [pres_setNext, hpre]
  simp only [del, if_neg hne, hpre', hnext', hsame, hsame']

/-- **`del`** of an item in the list. -/
theorem Holds.del (h : Holds s (l ++ x :: r)) :
    ∃ t, s.del x = .ok (t, true) ∧ Holds t (l ++ r) ∧ t.heap x = .detached ∧ t.head = s.head := by
  obtain ⟨hpre, hnext⟩ := h.linked.neighbours
  have hremoved := h.linked.remove h.nodup
  have hnodup : (s.head :: (l ++ r)).Nodup := by
    refine h.nodup.sublist ?_
    exact List.Sublist.cons_cons _ (List.Sublist.append_left (List.sublist_cons_self x r) l)
  -- `x` is neither the head nor in front of itself
  have hsplit : (s.head :: l ++ x :: r).Nodup := h.nodup
  have hfront : x ∉ s.head :: l := fun hx =>
    (List.nodup_append.mp hsplit).2.2 x hx x (List.mem_cons_self ..) rfl
  have hne : x ≠ s.head := fun heq => hfront (heq ▸ List.mem_cons_self ..)
  have hp : x ≠ l.getLastD s.head := fun heq => hfront (heq ▸ List.getLastD_mem_cons ..)
  rw [hnext] at hremoved
  cases r with
  | nil =>
    refine ⟨_, del_of_last hne hpre hnext hp, ⟨?_, hnodup, ?_⟩, ?_, rfl⟩
    · rw [nexts_setPre, nexts_setNext, pres_setPre, pres_setNext]
      change Linked (Function.update (s.setNext (l.getLastD s.head) none).pres x none)
        (Function.update (s.setNext (l.getLastD s.head) none).nexts x none) s.head (l ++ [])
      rw [nexts_setNext, pres_setNext]
      exact hremoved
    · rw [List.append_nil]
      rfl
    · apply heap_eq_detached
      · rw [pres_setPre, Function.update_self]
      · rw [nexts_setPre, nexts_setNext, Function.update_self]
  | cons q r =>
    refine ⟨_, del_of_inner hne hpre hnext hp, ⟨?_, hnodup, ?_⟩, ?_, rfl⟩
    · rw [nexts_setPre, nexts_setNext, nexts_setPre, nexts_setNext, pres_setPre, pres_setNext,
        pres_setPre, pres_setNext]
      rw [List.head?_cons, bridge, hpre] at hremoved
      exact hremoved
    · have hlast : (l ++ x :: q :: r).getLastD s.head = (l ++ q :: r).getLastD s.head := by simp
      exact h.tail.trans hlast
    · apply heap_eq_detached
      · rw [pres_setPre, Function.update_self]
      · rw [nexts_setPre, nexts_setNext, Function.update_self]

omit [DecidableEq ι] in
/-- **`for_earch`**. -/
theorem visit_eq {head : Option ι} (h : ForwardList.Chain s.nexts head items) {fuel : Nat}
    (hfuel : items.length ≤ fuel) : s.visit fuel head = some items := by
  induction items generalizing head fuel with
  | nil =>
    cases h
    cases fuel <;> rfl
  | cons x items ih =>
    obtain ⟨rfl, hrest⟩ := h
    obtain ⟨fuel, rfl⟩ := Nat.exists_eq_add_one_of_ne_zero
      (Nat.ne_of_gt (Nat.lt_of_lt_of_le (Nat.succ_pos _) hfuel))
    have hvisit := ih hrest (Nat.le_of_succ_le_succ hfuel)
    rw [visit]
    exact congrArg (Option.map (x :: ·)) hvisit

/-! ## Runs -/

end IntrusiveList

/-- A call of a client. -/
inductive ListCall (ι : Type*) where
  | add (item : ι)
  | del (item : ι)

namespace IntrusiveList

variable {ι : Type*} [DecidableEq ι]

def listStep (s : IntrusiveList ι) : ListCall ι → Except Fault (IntrusiveList ι)
  | .add item => .ok (s.add item)
  | .del item => (s.del item).map Prod.fst

/-- An item that is added is detached and not the list's own; one that is deleted is in the list or
detached. -/
def Allowed (s : IntrusiveList ι) : ListCall ι → Prop
  | .add item => item ≠ s.head ∧ s.heap item = .detached
  | .del item => s.Contains item ∨ s.heap item = .detached

/-- What a call does to the sequence of items. -/
def contents (items : List ι) : ListCall ι → List ι
  | .add item => items ++ [item]
  | .del item => items.erase item

/-- The list is this sequence. -/
structure Represents (s : IntrusiveList ι) (items : List ι) : Prop where
  /-- each item is linked to its predecessor and its successor, and the last one has none -/
  linked : Linked s.pres s.nexts s.head items
  contains : ∀ x, s.Contains x ↔ x ∈ items
  nodup : (s.head :: items).Nodup
  tail : s.tail = items.getLastD s.head
  del : ∀ x, s.Allowed (.del x) → ∃ t, s.del x = .ok (t, decide (x ∈ items)) ∧
    t.heap x = .detached
  visits : ∀ fuel, items.length ≤ fuel → s.forEarch fuel = some items

variable {s : IntrusiveList ι} {items : List ι}

theorem Holds.represents (h : Holds s items) : Represents s items where
  linked := h.linked
  contains := fun _ => h.contains_iff
  nodup := h.nodup
  tail := h.tail
  del := by
    intro x hx
    by_cases hmem : x ∈ items
    · obtain ⟨l, r, hsplit⟩ := List.append_of_mem hmem
      rw [decide_eq_true hmem]
      subst hsplit
      obtain ⟨t, hdel, -, hdetached, -⟩ := h.del
      exact ⟨t, hdel, hdetached⟩
    · have hdetached := hx.resolve_left fun hcontains => hmem (h.contains_iff.mp hcontains)
      rw [decide_eq_false hmem]
      exact ⟨s, del_of_detached (.inr hdetached), hdetached⟩
  visits := fun _ hfuel => visit_eq h.linked.chain hfuel

/-- **Step**. -/
theorem Holds.step (h : Holds s items) {c : ListCall ι} (hc : s.Allowed c) :
    ∃ t, listStep s c = .ok t ∧ Holds t (contents items c) := by
  cases c with
  | add x => exact ⟨_, rfl, h.add hc.1 hc.2⟩
  | del x =>
    by_cases hmem : x ∈ items
    · obtain ⟨l, r, -, hsplit, herase⟩ := List.exists_erase_eq hmem
      subst hsplit
      obtain ⟨t, hdel, ht, -, -⟩ := h.del
      refine ⟨t, ?_, ?_⟩
      · rw [listStep, hdel]
        rfl
      · rw [contents, herase]
        exact ht
    · have hdetached := hc.resolve_left fun hcontains => hmem (h.contains_iff.mp hcontains)
      refine ⟨s, ?_, ?_⟩
      · rw [listStep, del_of_detached (.inr hdetached)]
        rfl
      · rw [contents, List.erase_of_not_mem hmem]
        exact h

/-- **Run**. -/
theorem Holds.run (h : Holds s items) {calls : List (ListCall ι)}
    (hcalls : Along listStep Allowed s calls) :
    ∃ t, TransitionRun.run listStep s calls = .ok t ∧ Holds t (calls.foldl contents items) := by
  induction calls generalizing s items with
  | nil => exact ⟨s, rfl, h⟩
  | cons c calls ih =>
    obtain ⟨t, hstep, ht⟩ := h.step hcalls.head
    obtain ⟨u, hrun, hu⟩ := ih ht (hcalls.tail hstep)
    exact ⟨u, by rw [run_cons_ok hstep, hrun], hu⟩

/-- **Representation**: after any sequence of calls the list is the sequence of the items added and
not deleted since, in order of addition. -/
theorem list_represents (heap : ι → ListItem ι) (item : ι) {calls : List (ListCall ι)}
    (h : Along listStep Allowed (init heap item) calls) :
    ∃ s, TransitionRun.run listStep (init heap item) calls = .ok s ∧
      Represents s (calls.foldl contents []) := by
  obtain ⟨s, hrun, hs⟩ := (holds_init heap item).run h
  exact ⟨s, hrun, hs.represents⟩

/-- The calls of `list_test`. -/
def listTest : List (ListCall Nat) :=
  [.add 1, .add 2, .add 3, .add 4, .add 5, .del 1, .del 5]

theorem list_represents_listTest :
    ∃ s, TransitionRun.run listStep (init (fun _ => .detached) 0) listTest = .ok s ∧
      Represents s (listTest.foldl contents []) := by
  refine list_represents _ _ ?_
  refine ⟨⟨by decide, rfl⟩, fun _ h => ?_⟩
  cases h
  refine ⟨⟨by decide, rfl⟩, fun _ h => ?_⟩
  cases h
  refine ⟨⟨by decide, rfl⟩, fun _ h => ?_⟩
  cases h
  refine ⟨⟨by decide, rfl⟩, fun _ h => ?_⟩
  cases h
  refine ⟨⟨by decide, rfl⟩, fun _ h => ?_⟩
  cases h
  -- the first item and the last one are reached from the head
  refine ⟨.inl (.here 1), fun _ h => ?_⟩
  cases h
  exact ⟨.inl (.behind (.behind (.behind (.here 5)))), fun _ _ => trivial⟩

end IntrusiveList

end Sails.Base
