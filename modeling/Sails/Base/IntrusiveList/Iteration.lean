import Sails.Base.IntrusiveList

/-!
# Iteration over `base::list` while it changes

The iterator of a list under calls of `add`, `del`, `reset` and `next` in any order.

- `Walk`: the list, the items it should hold, and those of them the iterator has in front of it
- `Standing`: the iterator stands on the head or on an item of the list
- `iteration_survives_iff`: a run goes well exactly when no call of `next` finds the iterator on an
  item deleted from in front of others, or finds it lost
-/

namespace Sails.Base

open TransitionRun
open DoublyLinked

/-- A call of a client that iterates. -/
inductive IterCall (ι : Type*) where
  | change (call : ListCall ι)
  | reset
  | next

/-- A list, the items added and not deleted since, and those of them that are to come. -/
structure Walk (ι : Type*) where
  list : IntrusiveList ι
  items : List ι
  ahead : List ι

namespace Walk

open IntrusiveList

variable {ι : Type*} [DecidableEq ι]

/-- A list just constructed. -/
def start (heap : ι → ListItem ι) (item : ι) : Walk ι := ⟨init heap item, [], []⟩

/-- What a change makes of the items to come. An item that is added again while the iterator stands
on it is the last one. -/
def coming (iter : Option ι) (ahead : List ι) : ListCall ι → List ι
  | .add item => if iter = some item then [] else ahead ++ [item]
  | .del item => ahead.erase item

def step (w : Walk ι) : IterCall ι → Except Fault (Walk ι)
  | .change call => do
    let list ← listStep w.list call
    return ⟨list, contents w.items call, coming w.list.iter w.ahead call⟩
  | .reset => .ok ⟨w.list.reset, w.items, w.items⟩
  | .next => do
    let (list, _) ← w.list.next
    return ⟨list, w.items, w.ahead.tail⟩

/-- Items are added and deleted as the list allows it. -/
def Admitted (w : Walk ι) : IterCall ι → Prop
  | .change call => w.list.Allowed call
  | .reset | .next => True

end Walk

namespace IntrusiveList

variable {ι : Type*} [DecidableEq ι]

/-- The results of `n` calls of `next`. -/
def nextTimes (s : IntrusiveList ι) : Nat → Except Fault (List (Option ι))
  | 0 => .ok []
  | n + 1 => do
    let (s, item) ← s.next
    let items ← s.nextTimes n
    return item :: items

/-! ## What the changes leave alone -/

variable {s t : IntrusiveList ι} {items ahead : List ι} {p q x : ι} {v : Option ι}

theorem heap_setNext_of_ne (h : q ≠ p) : (s.setNext p v).heap q = s.heap q :=
  Function.update_of_ne h _ _

theorem heap_setPre_of_ne (h : q ≠ p) : (s.setPre p v).heap q = s.heap q :=
  Function.update_of_ne h _ _

theorem heap_add_of_ne (htail : q ≠ s.tail) (hx : q ≠ x) : (s.add x).heap q = s.heap q := by
  rw [← heap_setNext_of_ne (s := s) (v := some x) htail]
  exact heap_setPre_of_ne hx

/-- `del` writes to the item and its neighbours only. -/
theorem heap_del_of_ne (h : s.del x = .ok (t, true)) (hx : q ≠ x) (hpre : s.pres x ≠ some q)
    (hnext : s.nexts x ≠ some q) : t.heap q = s.heap q := by
  unfold del at h
  split_ifs at h with hhead
  · cases h
  · split at h
    · cases h
    · cases h
    · rename_i next pre hpre'
      have hq : q ≠ pre := fun heq => hpre (heq ▸ hpre')
      -- `x` is linked to the same successor when it is looked at again
      have hsame : ((s.setNext pre (s.heap x).next).heap x).next = s.nexts x := by
        show (s.setNext pre (s.nexts x)).nexts x = s.nexts x
        rw [nexts_setNext]
        by_cases hxpre : x = pre
        · rw [hxpre, Function.update_self]
        · rw [Function.update_of_ne hxpre]
      cases h
      rw [heap_setPre_of_ne hx, heap_setNext_of_ne hx]
      split
      · rename_i r hr
        have hqr : q ≠ r := fun heq => hnext (by rw [← hsame, hr, heq])
        rw [heap_setPre_of_ne hqr, heap_setNext_of_ne hq]
      · exact heap_setNext_of_ne hq

/-- The iterator and the head stay. -/
theorem del_keeps {deleted : Bool} (h : s.del x = .ok (t, deleted)) :
    t.head = s.head ∧ t.iter = s.iter := by
  unfold del at h
  split_ifs at h with hhead
  · cases h
    exact ⟨rfl, rfl⟩
  · split at h
    · cases h
      exact ⟨rfl, rfl⟩
    · cases h
    · cases h
      split
      · exact ⟨rfl, rfl⟩
      · exact ⟨rfl, rfl⟩

/-! ## `next` -/

/-- The iterator stands on the head or an item, and these items are ahead. -/
def Standing (s : IntrusiveList ι) (items : List ι) (p : ι) (ahead : List ι) : Prop :=
  s.iter = some p ∧ ∃ passed, s.head :: items = passed ++ p :: ahead

omit [DecidableEq ι] in
/-- What follows a node of the list, the head included. -/
theorem Holds.nexts_of_split (h : Holds s items) {passed : List ι}
    (hsplit : s.head :: items = passed ++ p :: ahead) : s.nexts p = ahead.head? := by
  cases passed with
  | nil =>
    obtain ⟨rfl, rfl⟩ := List.cons.inj hsplit
    have hlinked := h.linked
    cases items with
    | nil => exact hlinked
    | cons y items => exact hlinked.1
  | cons y passed =>
    obtain ⟨rfl, hitems⟩ := List.cons.inj hsplit
    have hlinked := h.linked
    rw [hitems] at hlinked
    exact hlinked.neighbours.2

omit [DecidableEq ι] in
/-- The last node is the one with nothing ahead. -/
theorem Holds.eq_tail_iff (h : Holds s items) {passed : List ι}
    (hsplit : s.head :: items = passed ++ p :: ahead) : p = s.tail ↔ ahead = [] := by
  have htail : s.tail = ahead.getLastD p := by
    have hlast : (s.head :: items).getLast? = (passed ++ p :: ahead).getLast? := by rw [hsplit]
    rw [List.getLast?_append, List.getLast?_cons, List.getLast?_cons, Option.some_or] at hlast
    rw [h.tail, List.getLastD_eq_getLast?, List.getLastD_eq_getLast?]
    exact Option.some.inj hlast
  have hnodup : (p :: ahead).Nodup := by
    have hall := h.nodup
    rw [hsplit] at hall
    exact (List.nodup_append.mp hall).2.1
  rw [htail]
  constructor
  · intro heq
    cases ahead with
    | nil => rfl
    | cons y ahead =>
      -- the last of the items ahead is not `p`
      rw [List.getLastD_cons] at heq
      exact absurd (heq ▸ List.getLastD_mem_cons ..) (List.nodup_cons.mp hnodup).1
  · rintro rfl
    rfl

/-- **`next`** from an item of the list: the first of those ahead, which the iterator goes to. -/
theorem Standing.next (hs : Holds s items) (h : Standing s items p ahead) :
    ∃ t, s.next = .ok (t, ahead.head?) ∧ Holds t items ∧
      Standing t items (ahead.head?.getD p) ahead.tail := by
  obtain ⟨hiter, passed, hsplit⟩ := h
  have hnext : (s.heap p).next = ahead.head? := hs.nexts_of_split hsplit
  have hlast := hs.eq_tail_iff hsplit
  cases ahead with
  | nil =>
    refine ⟨s, ?_, hs, hiter, passed, hsplit⟩
    rw [IntrusiveList.next, hiter]
    simp only [hlast.mpr rfl, ne_eq, not_true_eq_false, if_false]
    rw [← hlast.mpr rfl, hnext]
  | cons q ahead =>
    have hne : p ≠ s.tail := fun heq => List.cons_ne_nil q ahead (hlast.mp heq)
    refine ⟨{ s with iter := some q }, ?_, ⟨hs.linked, hs.nodup, hs.tail⟩, rfl, passed ++ [p], ?_⟩
    · rw [IntrusiveList.next, hiter]
      simp only [if_pos hne, hnext]
      rfl
    · rw [List.append_assoc]
      exact hsplit

/-- Calls of `next` in a row give the items ahead, then `NULL`. -/
theorem Standing.nextTimes (hs : Holds s items) (h : Standing s items p ahead) (n : Nat) :
    s.nextTimes n = .ok ((ahead.map some ++ List.replicate n none).take n) := by
  induction n generalizing s p ahead with
  | zero => rfl
  | succ n ih =>
    obtain ⟨t, hok, ht, hstands⟩ := h.next hs
    have hrest := ih ht hstands
    rw [IntrusiveList.nextTimes, hok]
    simp only [bind, Except.bind, hrest]
    cases ahead with
    | nil => simp [pure, Except.pure, List.replicate_succ]
    | cons q ahead =>
      have hmore : (ahead.map some ++ List.replicate (n + 1) none).take n =
          (ahead.map some ++ List.replicate n none).take n := by
        rw [List.replicate_succ', ← List.append_assoc, List.take_append_of_le_length]
        rw [List.length_append, List.length_replicate]
        exact Nat.le_add_left ..
      rw [List.map_cons, List.cons_append, List.take_succ_cons, hmore]
      rfl

omit [DecidableEq ι] in
theorem Standing.reset : Standing s.reset items s.head items := ⟨rfl, [], rfl⟩

omit [DecidableEq ι] in
/-- The items ahead are items of the list. -/
theorem Standing.mem (h : Standing s items p ahead) (hq : q ∈ ahead) : q ∈ items := by
  obtain ⟨-, passed, hsplit⟩ := h
  cases passed with
  | nil =>
    cases hsplit
    exact hq
  | cons y passed =>
    obtain ⟨-, rfl⟩ := List.cons.inj hsplit
    exact List.mem_append_right _ (List.mem_cons_of_mem _ hq)

omit [DecidableEq ι] in
theorem Standing.mem_self (h : Standing s items p ahead) : p ∈ s.head :: items := by
  obtain ⟨-, passed, hsplit⟩ := h
  rw [hsplit]
  exact List.mem_append_right _ (List.mem_cons_self ..)

end IntrusiveList

namespace Walk

open IntrusiveList

variable {ι : Type*} [DecidableEq ι]

/-- What a client relies on at a call: `next` does not fail, and returns an item that is in the list,
or `NULL` when none is ahead. -/
def Survives (w : Walk ι) (c : IterCall ι) : Prop :=
  match c with
  | .next => ∃ list result, w.list.next = .ok (list, result) ∧ (∀ x, result = some x → x ∈ w.items) ∧
      (result = none → w.ahead = [])
  | .change _ | .reset => True

/-- After a `reset`, calls of `next` give the items in order, each once, then `NULL`. -/
def Rewinds (w : Walk ι) : Prop :=
  ∀ n, w.list.reset.nextTimes n = .ok ((w.items.map some ++ List.replicate n none).take n)

/-- At a call of `next` the iterator stands on the head or on an item of the list, or on an item
that was deleted and has nothing ahead. -/
def OnItem (w : Walk ι) (c : IterCall ι) : Prop :=
  match c with
  | .next => ∃ p, w.list.iter = some p ∧ (p ∈ w.list.head :: w.items ∨ w.ahead = [])
  | .change _ | .reset => True

/-- The list holds the items. An iterator on one of them has the items behind it ahead; any other
one is on a detached item, or lost. -/
structure Inv (w : Walk ι) : Prop where
  holds : Holds w.list w.items
  standing : ∀ p, w.list.iter = some p → p ∈ w.list.head :: w.items →
    Standing w.list w.items p w.ahead
  detached : ∀ p, w.list.iter = some p → p ∉ w.list.head :: w.items → w.list.heap p = .detached

variable {w w' : Walk ι} {c : IterCall ι}

theorem Inv.start (heap : ι → ListItem ι) (item : ι) : (start heap item).Inv where
  holds := holds_init heap item
  standing := by
    intro p hp _
    exact ⟨hp, [], by cases hp; rfl⟩
  detached := by
    intro p hp hmem
    cases hp
    exact absurd (List.mem_cons_self ..) hmem

theorem Inv.rewinds (h : w.Inv) : w.Rewinds := by
  have hreset : Holds w.list.reset w.items := ⟨h.holds.linked, h.holds.nodup, h.holds.tail⟩
  exact Standing.reset.nextTimes hreset

/-- A detached item under the iterator: `next` gives `NULL`, and the iterator is lost. -/
theorem next_of_detached {s : IntrusiveList ι} {items : List ι} {p : ι} (hs : Holds s items)
    (hiter : s.iter = some p) (hmem : p ∉ s.head :: items) (hp : s.heap p = .detached) :
    s.next = .ok ({ s with iter := none }, none) := by
  have hne : p ≠ s.tail := by
    rintro rfl
    exact hmem (hs.tail ▸ List.getLastD_mem_cons ..)
  rw [IntrusiveList.next, hiter]
  simp only [if_pos hne, hp]
  rfl

/-- **A call goes well exactly on an item.** -/
theorem Inv.survives_iff (h : w.Inv) : w.Survives c ↔ w.OnItem c := by
  cases c with
  | change call => exact Iff.rfl
  | reset => exact Iff.rfl
  | next =>
    constructor
    · rintro ⟨list, result, hok, -, hend⟩
      cases hiter : w.list.iter with
      | none =>
        rw [IntrusiveList.next, hiter] at hok
        cases hok
      | some p =>
        refine ⟨p, hiter, ?_⟩
        by_contra hoff
        obtain ⟨hmem, hahead⟩ := not_or.mp hoff
        -- off the list the result is `NULL`, with items ahead
        rw [next_of_detached h.holds hiter hmem (h.detached p hiter hmem)] at hok
        cases hok
        exact hahead (hend rfl)
    · rintro ⟨p, hiter, hon⟩
      by_cases hmem : p ∈ w.list.head :: w.items
      · have hstands := h.standing p hiter hmem
        obtain ⟨t, hok, -, -⟩ := hstands.next h.holds
        refine ⟨t, _, hok, fun x hx => hstands.mem (List.mem_of_head? hx), fun hend => ?_⟩
        exact List.head?_eq_none_iff.mp hend
      · have hdetached := h.detached p hiter hmem
        exact ⟨_, none, next_of_detached h.holds hiter hmem hdetached, by simp,
          fun _ => hon.resolve_left hmem⟩

end Walk

/-! ## Changes under the iterator -/

namespace IntrusiveList

variable {ι : Type*} [DecidableEq ι] {s t : IntrusiveList ι} {items ahead : List ι} {p x : ι}

/-- What an admitted `del` does: nothing, or it detaches an item of the list. -/
theorem Holds.del_cases (hs : Holds s items) (hx : s.Allowed (.del x))
    (hok : listStep s (.del x) = .ok t) :
    (x ∉ items ∧ t = s) ∨ (x ∈ items ∧ s.del x = .ok (t, true) ∧ t.heap x = .detached) := by
  by_cases hmem : x ∈ items
  · obtain ⟨l, r, hsplit⟩ := List.append_of_mem hmem
    subst hsplit
    obtain ⟨t', hdel, -, hdetached, -⟩ := hs.del
    rw [listStep, hdel] at hok
    cases hok
    exact .inr ⟨hmem, hdel, hdetached⟩
  · have hdetached := hx.resolve_left fun hcontains => hmem (hs.contains_iff.mp hcontains)
    rw [listStep, del_of_detached (.inr hdetached)] at hok
    cases hok
    exact .inl ⟨hmem, rfl⟩

omit [DecidableEq ι] in
/-- The neighbours of an item are in the list, or the head. -/
theorem Holds.not_neighbour (hs : Holds s items) (hx : x ∈ items) (hp : p ∉ s.head :: items) :
    s.pres x ≠ some p ∧ s.nexts x ≠ some p := by
  obtain ⟨l, r, rfl⟩ := List.append_of_mem hx
  obtain ⟨hpre, hnext⟩ := hs.linked.neighbours
  constructor
  · intro heq
    obtain rfl := Option.some.inj (hpre.symm.trans heq)
    have hmem : l.getLastD s.head ∈ s.head :: l ++ x :: r :=
      List.mem_append_left _ (List.getLastD_mem_cons ..)
    exact hp hmem
  · intro heq
    have hmem : p ∈ r := List.mem_of_head? (hnext.symm.trans heq)
    exact hp (List.mem_cons_of_mem _ (List.mem_append_right _ (List.mem_cons_of_mem _ hmem)))

/-- A change keeps the head and the iterator. -/
theorem listStep_keeps {call : ListCall ι} (hok : listStep s call = .ok t) :
    t.head = s.head ∧ t.iter = s.iter := by
  cases call with
  | add x =>
    cases hok
    exact ⟨rfl, rfl⟩
  | del x =>
    cases hdel : s.del x with
    | error f =>
      rw [listStep, hdel] at hok
      cases hok
    | ok r =>
      rw [listStep, hdel] at hok
      cases hok
      exact del_keeps hdel

/-- An added item comes behind those ahead; under the iterator it is the last one. -/
theorem Standing.add (hiter : s.iter = some p) (hmem : p ∈ s.head :: (items ++ [x]))
    (hstands : p ∈ s.head :: items → Standing s items p ahead) :
    Standing (s.add x) (items ++ [x]) p (Walk.coming s.iter ahead (.add x)) := by
  by_cases hpx : p = x
  · subst hpx
    rw [Walk.coming, if_pos hiter]
    exact ⟨hiter, s.head :: items, rfl⟩
  · have hold : p ∈ s.head :: items := by
      have hmem' : p ∈ s.head :: items ++ [x] := hmem
      rcases List.mem_append.mp hmem' with h | h
      · exact h
      · exact absurd (List.mem_singleton.mp h) hpx
    obtain ⟨-, passed, hsplit⟩ := hstands hold
    have hother : ¬s.iter = some x := fun h => hpx (Option.some.inj (hiter.symm.trans h))
    rw [Walk.coming, if_neg hother]
    refine ⟨hiter, passed, ?_⟩
    show s.head :: items ++ [x] = passed ++ p :: (ahead ++ [x])
    rw [hsplit, List.append_assoc, List.cons_append]

/-- An item deleted elsewhere is ahead or has been passed. -/
theorem Standing.del (hs : Holds s items) (h : Standing s items p ahead) (hx : x ∈ items)
    (hpx : p ≠ x) (hkeeps : t.head = s.head ∧ t.iter = s.iter) :
    Standing t (items.erase x) p (ahead.erase x) := by
  obtain ⟨hiter, passed, hsplit⟩ := h
  have hnodup := hs.nodup
  have hhead : s.head ≠ x := fun heq => (List.nodup_cons.mp hnodup).1 (heq ▸ hx)
  have herase : s.head :: items.erase x = (passed ++ p :: ahead).erase x := by
    rw [← hsplit, List.erase_cons_tail (by simpa using hhead)]
  rw [hsplit] at hnodup
  refine ⟨hkeeps.2.trans hiter, ?_⟩
  rw [hkeeps.1, herase]
  by_cases hpassed : x ∈ passed
  -- then it is not ahead
  · have hahead : x ∉ ahead := fun hmem =>
      (List.nodup_append.mp hnodup).2.2 x hpassed x (List.mem_cons_of_mem _ hmem) rfl
    rw [List.erase_append_left _ hpassed, List.erase_of_not_mem hahead]
    exact ⟨_, rfl⟩
  · rw [List.erase_append_right _ hpassed, List.erase_cons_tail (by simpa using hpx)]
    exact ⟨_, rfl⟩

end IntrusiveList

namespace Walk

open IntrusiveList

variable {ι : Type*} [DecidableEq ι] {w w' : Walk ι} {c : IterCall ι}

/-- A change of the list. -/
theorem Inv.change (h : w.Inv) {call : ListCall ι} (hcall : w.list.Allowed call)
    {t : IntrusiveList ι} (hok : listStep w.list call = .ok t) :
    Inv ⟨t, contents w.items call, coming w.list.iter w.ahead call⟩ := by
  obtain ⟨t', hok', hholds⟩ := h.holds.step hcall
  obtain rfl : t' = t := Except.ok.inj (hok'.symm.trans hok)
  obtain ⟨hhead, hiter⟩ := listStep_keeps hok
  cases call with
  | add x =>
    cases hok
    refine ⟨hholds, fun p hp hmem => Standing.add hp hmem (h.standing p hp), fun p hp hmem => ?_⟩
    have hoff : p ∉ w.list.head :: w.items := fun hold => hmem (List.mem_append_left [x] hold)
    have hpx : p ≠ x := by
      rintro rfl
      exact hmem (List.mem_append_right (w.list.head :: w.items) (List.mem_singleton_self p))
    have htail : p ≠ w.list.tail := by
      rintro rfl
      exact hoff (h.holds.tail ▸ List.getLastD_mem_cons ..)
    rw [heap_add_of_ne htail hpx]
    exact h.detached p hp hoff
  | del x =>
    rcases h.holds.del_cases hcall hok with ⟨hx, rfl⟩ | ⟨hx, hdel, hdetached⟩
    -- nothing has changed
    · have hsame : contents w.items (.del x) = w.items := List.erase_of_not_mem hx
      refine ⟨hholds, fun p hp hmem => ?_, fun p hp hmem => ?_⟩
      · rw [hsame] at hmem ⊢
        have hstands := h.standing p hp hmem
        rw [coming, List.erase_of_not_mem fun hahead => hx (hstands.mem hahead)]
        exact hstands
      · rw [hsame] at hmem
        exact h.detached p hp hmem
    · have hxhead : x ≠ w.list.head := fun heq => (List.nodup_cons.mp h.holds.nodup).1 (heq ▸ hx)
      refine ⟨hholds, fun p hp hmem => ?_, fun p hp hmem => ?_⟩
      · rw [hiter] at hp
        rw [hhead] at hmem
        have hpx : p ≠ x := by
          rintro rfl
          refine (List.mem_cons.mp hmem).elim hxhead fun herase => ?_
          exact (List.nodup_cons.mp h.holds.nodup).2.not_mem_erase herase
        have hold : p ∈ w.list.head :: w.items := by
          rcases List.mem_cons.mp hmem with rfl | herase
          · exact List.mem_cons_self ..
          · exact List.mem_cons_of_mem _ (List.mem_of_mem_erase herase)
        exact (h.standing p hp hold).del h.holds hx hpx ⟨hhead, hiter⟩
      · by_cases hpx : p = x
        · rw [hpx]
          exact hdetached
        · rw [hiter] at hp
          rw [hhead] at hmem
          have hoff : p ∉ w.list.head :: w.items := by
            intro hold
            rcases List.mem_cons.mp hold with rfl | hold
            · exact hmem (List.mem_cons_self ..)
            · exact hmem (List.mem_cons_of_mem _ ((List.mem_erase_of_ne hpx).mpr hold))
          -- the item under the iterator is no neighbour of the one deleted
          obtain ⟨hpre, hnext⟩ := h.holds.not_neighbour hx hoff
          rw [heap_del_of_ne hdel hpx hpre hnext]
          exact h.detached p hp hoff

/-- **Step**: every admitted call that returns keeps the invariant. -/
theorem Inv.step (h : w.Inv) (hc : w.Admitted c) (hok : step w c = .ok w') : w'.Inv := by
  cases c with
  | change call =>
    cases hlist : listStep w.list call with
    | error f =>
      rw [Walk.step, hlist] at hok
      cases hok
    | ok t =>
      rw [Walk.step, hlist] at hok
      cases hok
      exact h.change hc hlist
  | reset =>
    cases hok
    refine ⟨⟨h.holds.linked, h.holds.nodup, h.holds.tail⟩, fun p hp _ => ?_, fun p hp hmem => ?_⟩
    · cases hp
      exact Standing.reset
    · cases hp
      exact absurd (List.mem_cons_self ..) hmem
  | next =>
    cases hiter : w.list.iter with
    | none =>
      rw [Walk.step, IntrusiveList.next, hiter] at hok
      cases hok
    | some p =>
      by_cases hmem : p ∈ w.list.head :: w.items
      · obtain ⟨t, hnext, hholds, hstands⟩ := (h.standing p hiter hmem).next h.holds
        rw [Walk.step, hnext] at hok
        cases hok
        refine ⟨hholds, fun q hq _ => ?_, fun q hq hoff => ?_⟩
        · obtain rfl := Option.some.inj (hstands.1.symm.trans hq)
          exact hstands
        · obtain rfl := Option.some.inj (hstands.1.symm.trans hq)
          exact absurd hstands.mem_self hoff
      -- the iterator is lost
      · rw [Walk.step, next_of_detached h.holds hiter hmem (h.detached p hiter hmem)] at hok
        cases hok
        refine ⟨⟨h.holds.linked, h.holds.nodup, h.holds.tail⟩, fun q hq => ?_, fun q hq => ?_⟩
        · cases hq
        · cases hq

/-- A call with the iterator on an item returns. -/
theorem Inv.step_ok (h : w.Inv) (hc : w.Admitted c) (hon : w.OnItem c) :
    ∃ w', Walk.step w c = .ok w' := by
  cases c with
  | change call =>
    obtain ⟨t, hok, -⟩ := h.holds.step hc
    exact ⟨_, by rw [Walk.step, hok]; rfl⟩
  | reset => exact ⟨_, rfl⟩
  | next =>
    obtain ⟨t, result, hok, -⟩ := h.survives_iff.mpr hon
    exact ⟨_, by rw [Walk.step, hok]; rfl⟩

/-- **Iteration survives** a run of calls, with every `next` as its client relies on and every `reset`
followed by the items in order, exactly when each `next` finds the iterator on an item. -/
theorem iteration_survives_iff (heap : ι → ListItem ι) (item : ι) {calls : List (IterCall ι)}
    (h : Along step Admitted (start heap item) calls) :
    (∃ w, run step (start heap item) calls = .ok w ∧
      Along step Survives (start heap item) calls ∧ w.Rewinds) ↔
      Along step OnItem (start heap item) calls := by
  have hstep : ∀ (w : Walk ι) c w', w.Inv → w.Admitted c → step w c = .ok w' → w'.Inv :=
    fun _ _ _ hinv hc hok => hinv.step hc hok
  have hstart := Inv.start heap item
  constructor
  · rintro ⟨w, -, halong, -⟩
    exact ((Along.invariant hstep hstart h).and halong).mono fun w c hw => hw.1.1.survives_iff.mp hw.2
  · intro halong
    have hsafe : ∀ (w : Walk ι) c, w.Inv → w.Admitted c ∧ w.OnItem c →
        ∃ w', step w c = .ok w' ∧ w'.Inv := by
      intro w c hinv hc
      obtain ⟨w', hok⟩ := hinv.step_ok hc.1 hc.2
      exact ⟨w', hok, hinv.step hc.1 hok⟩
    obtain ⟨w, hrun, hinv⟩ := run_ok hsafe hstart (h.and halong)
    refine ⟨w, hrun, ?_, hinv.rewinds⟩
    exact ((Along.invariant hstep hstart h).and halong).mono fun w c hw => hw.1.1.survives_iff.mpr hw.2

/-- The item under the iterator is deleted, and the iteration begun again. -/
def resetAfterDel : List (IterCall Nat) :=
  [.change (.add 1), .change (.add 2), .next, .change (.del 1), .reset, .next]

theorem iteration_survives_iff_reset :
    ∃ w, run step (start (fun _ => .detached) 0) resetAfterDel = .ok w ∧
      Along step Survives (start (fun _ => .detached) 0) resetAfterDel ∧ w.Rewinds := by
  refine (iteration_survives_iff _ _ ?_).mpr ?_
  · refine ⟨⟨by decide, rfl⟩, fun _ h => ?_⟩
    cases h
    refine ⟨⟨by decide, rfl⟩, fun _ h => ?_⟩
    cases h
    refine ⟨trivial, fun _ h => ?_⟩
    cases h
    refine ⟨.inl (.here 1), fun _ h => ?_⟩
    cases h
    exact ⟨trivial, fun _ _ => ⟨trivial, fun _ _ => trivial⟩⟩
  · refine ⟨trivial, fun _ h => ?_⟩
    cases h
    refine ⟨trivial, fun _ h => ?_⟩
    cases h
    -- the first `next` comes from the head
    refine ⟨⟨0, rfl, .inl (by decide)⟩, fun _ h => ?_⟩
    cases h
    refine ⟨trivial, fun _ h => ?_⟩
    cases h
    refine ⟨trivial, fun _ h => ?_⟩
    cases h
    exact ⟨⟨0, rfl, .inl (by decide)⟩, fun _ _ => trivial⟩

/-- The item under the iterator is deleted, and the iteration goes on. -/
def nextAfterDel : List (IterCall Nat) :=
  [.change (.add 1), .change (.add 2), .next, .change (.del 1), .next, .next]

/-- The second `next` after the deletion follows a null pointer. -/
theorem next_after_del_fails :
    Along step Admitted (start (fun _ => .detached) 0) nextAfterDel ∧
      run step (start (fun _ => .detached) 0) nextAfterDel = .error .nullPointer := by
  refine ⟨?_, rfl⟩
  refine ⟨⟨by decide, rfl⟩, fun _ h => ?_⟩
  cases h
  refine ⟨⟨by decide, rfl⟩, fun _ h => ?_⟩
  cases h
  refine ⟨trivial, fun _ h => ?_⟩
  cases h
  refine ⟨.inl (.here 1), fun _ h => ?_⟩
  cases h
  exact ⟨trivial, fun _ _ => ⟨trivial, fun _ _ => trivial⟩⟩

end Walk

end Sails.Base
