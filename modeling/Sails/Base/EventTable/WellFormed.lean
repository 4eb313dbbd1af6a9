import Sails.Base.EventTable

/-!
# When the event table is well formed

The kernel accepts every call, so only the table matters.

- `Anfd.Formed`: a used entry has events of its own descriptor, and caches the union of their masks
- `clearMask_disjoint`: what the loop of `delete_event` leaves when the mask misses the list head
- `deleteEvent_formed`, `not_wellFormed_cleared`: only such a mask leaves the entry well formed
- `table_formed_iff`: so a run does exactly when every DEL misses the cached mask or the list head
-/

namespace Sails.Base

open TransitionRun
open EventLoop

/-! ## Masks -/

/-- READ, WRITE or both. -/
theorem Mask.Valid.cases {mask : Mask} (h : mask.Valid) : mask = 1 ∨ mask = 2 ∨ mask = 3 := by
  obtain ⟨hne, hand⟩ := h
  have hmod : mask.toNat % 4 = mask.toNat := by
    have hnat := congrArg BitVec.toNat hand
    rw [BitVec.toNat_and] at hnat
    exact (Nat.and_two_pow_sub_one_eq_mod mask.toNat 2).symm.trans hnat
  have hpos : mask.toNat ≠ 0 := fun hzero => hne (BitVec.eq_of_toNat_eq hzero)
  have hcases : mask.toNat = 1 ∨ mask.toNat = 2 ∨ mask.toNat = 3 := by omega
  exact hcases.imp BitVec.eq_of_toNat_eq (Or.imp BitVec.eq_of_toNat_eq BitVec.eq_of_toNat_eq)

theorem Mask.Valid.or {a b : Mask} (ha : a.Valid) (hb : b.Valid) : (a ||| b).Valid := by
  unfold Mask.Valid
  rcases ha.cases with rfl | rfl | rfl <;> rcases hb.cases with rfl | rfl | rfl <;> decide

/-- The test of `delete_event`, made of `int`s. -/
theorem Mask.Valid.and_pos_iff {a b : Mask} (ha : a.Valid) (hb : b.Valid) :
    (a &&& b).toInt > 0 ↔ a &&& b ≠ 0 := by
  rcases ha.cases with rfl | rfl | rfl <;> rcases hb.cases with rfl | rfl | rfl <;> decide

theorem foldl_or (es : List Event) (mask : Mask) :
    es.foldl (fun mask e => mask ||| e.events) mask = mask ||| unionMask es := by
  induction es generalizing mask with
  | nil => exact BitVec.or_zero.symm
  | cons e es ih =>
    have hcons : unionMask (e :: es) = 0 ||| e.events ||| unionMask es := ih (0 ||| e.events)
    have hzero : 0 ||| e.events = e.events := BitVec.zero_or
    rw [List.foldl_cons, ih, hcons, hzero, BitVec.or_assoc]

theorem unionMask_cons (e : Event) (es : List Event) :
    unionMask (e :: es) = e.events ||| unionMask es := by
  have hzero : 0 ||| e.events = e.events := BitVec.zero_or
  rw [unionMask, List.foldl_cons, foldl_or, hzero]

/-- The union has the bits of each event. -/
theorem or_unionMask_of_mem {e : Event} {es : List Event} (h : e ∈ es) :
    e.events ||| unionMask es = unionMask es := by
  induction es with
  | nil => cases h
  | cons d es ih =>
    rw [unionMask_cons]
    rcases List.mem_cons.mp h with rfl | hmem
    · rw [← BitVec.or_assoc, BitVec.or_self]
    · rw [← BitVec.or_assoc, BitVec.or_comm e.events, BitVec.or_assoc, ih hmem]

theorem unionMask_valid {e : Event} {es : List Event} (he : Mask.Valid e.events)
    (hes : ∀ d ∈ es, Mask.Valid d.events) : Mask.Valid (unionMask (e :: es)) := by
  induction es generalizing e with
  | nil => rwa [unionMask_singleton]
  | cons d es ih =>
    rw [unionMask_cons]
    exact he.or (ih (hes d (List.mem_cons_self ..)) fun d' hd' =>
      hes d' (List.mem_cons_of_mem _ hd'))

/-- Bits that are not there are not lost. -/
theorem and_not_of_and_eq_zero {a b : Mask} (h : a &&& b = 0) : a &&& ~~~b = a := by
  have hsplit : a = a &&& b ||| a &&& ~~~b := by
    rw [← BitVec.and_or_distrib_left, BitVec.or_not_self]
    exact BitVec.and_allOnes.symm
  rw [h] at hsplit
  have hor : 0 ||| a &&& ~~~b = a &&& ~~~b := BitVec.zero_or
  exact (hsplit.trans hor).symm

/-! ## Entries -/

/-- The entry of a descriptor is as the operations expect it. -/
def Anfd.WellFormed (a : Anfd) (fd : Int) : Prop :=
  a.isused = 1 → ∃ es, a.next = .events es ∧ es ≠ [] ∧ (∀ e ∈ es, e.events ≠ 0 ∧ e.fd = fd) ∧
    a.events = unionMask es

/-- So are all entries. -/
def EventLoop.WellFormed (s : EventLoop) : Prop := ∀ fd, (s.entry fd).WellFormed fd

/-- A used entry, whose masks are valid as well. -/
structure Anfd.Holds (a : Anfd) (fd : Int) (first : Event) (rest : List Event) : Prop where
  next : a.next = .events (first :: rest)
  events : a.events = unionMask (first :: rest)
  valid : ∀ e ∈ first :: rest, Mask.Valid e.events ∧ e.fd = fd

/-- What a run keeps of an entry. -/
def Anfd.Formed (a : Anfd) (fd : Int) : Prop :=
  a.isused = 1 → ∃ first rest, a.Holds fd first rest

theorem Anfd.Formed.wellFormed {a : Anfd} {fd : Int} (h : a.Formed fd) : a.WellFormed fd := by
  intro hused
  obtain ⟨first, rest, hholds⟩ := h hused
  exact ⟨first :: rest, hholds.next, List.cons_ne_nil first rest, fun e he => ⟨(hholds.valid e he).1.1,
    (hholds.valid e he).2⟩, hholds.events⟩

/-- The head of an entry's list; only used entries have one. -/
def Anfd.head (a : Anfd) : Option Event :=
  match a.next with
  | .events (e :: _) => some e
  | _ => none

/-- The mask misses the entry, or its list head. -/
def Anfd.Misses (a : Anfd) (mask : Mask) : Prop :=
  a.isused ≠ 1 ∨ a.events &&& mask = 0 ∨ ∀ e ∈ a.head, e.events &&& mask = 0

/-- The loop of `delete_event` when the mask is all the list head does not have: what remains
has the mask of the head. -/
theorem clearMask_disjoint {kept mask : Mask} (hkept : kept.Valid) (hmask : mask.Valid)
    (hdisjoint : kept &&& mask = 0) {es : List Event} (hes : ∀ e ∈ es, Mask.Valid e.events) :
    ∀ e' ∈ clearMask mask es, e'.events = kept ∧ ∃ e ∈ es, e'.fd = e.fd := by
  -- on the events behind the head, which the loop treats one by one
  induction es with
  | nil => exact fun _ he' => nomatch he'
  | cons e es ih =>
    have htail : ∀ e' ∈ clearMask mask es, e'.events = kept ∧ ∃ d ∈ e :: es, e'.fd = d.fd := by
      intro e' he'
      obtain ⟨hevents, d, hd, hfd⟩ := ih (fun d hd => hes d (List.mem_cons_of_mem _ hd)) e' he'
      exact ⟨hevents, d, List.mem_cons_of_mem _ hd, hfd⟩
    have he := hes e (List.mem_cons_self ..)
    -- with two bits in all, an event has the mask, or keeps the rest of its bits
    have hbits : (¬ (e.events &&& mask).toInt > 0 → e.events = kept) ∧
        ((e.events &&& mask).toInt > 0 → e.events ^^^ mask ≠ 0 → e.events ^^^ mask = kept) := by
      rw [he.and_pos_iff hmask]
      generalize e.events = events at he
      rcases hkept.cases with rfl | rfl | rfl <;> rcases hmask.cases with rfl | rfl | rfl <;>
        rcases he.cases with rfl | rfl | rfl <;> revert hdisjoint <;> decide
    intro e' he'
    unfold clearMask at he'
    split at he'
    · rename_i hhit
      split at he'
      · exact htail e' he'
      · rename_i hne
        rcases List.mem_cons.mp he' with rfl | hmem
        · exact ⟨hbits.2 hhit hne, e, List.mem_cons_self .., rfl⟩
        · exact htail e' hmem
    · rename_i hmiss
      rcases List.mem_cons.mp he' with rfl | hmem
      · exact ⟨hbits.1 hmiss, e', List.mem_cons_self .., rfl⟩
      · exact htail e' hmem

/-- The union of events that all have one mask. -/
theorem unionMask_eq {mask : Mask} {first : Event} {rest : List Event}
    (h : ∀ e ∈ first :: rest, e.events = mask) : unionMask (first :: rest) = mask := by
  induction rest generalizing first with
  | nil => rw [unionMask_singleton, h first (List.mem_cons_self ..)]
  | cons e rest ih =>
    rw [unionMask_cons, h first (List.mem_cons_self ..),
      ih fun d hd => h d (List.mem_cons_of_mem _ hd), BitVec.or_self]

/-! ## Operations that the kernel accepts -/

/-- Registrations with which the kernel accepts every call of the operation. -/
def acceptingEpoll : EventOp → Epoll
  | .add .. => fun _ => none
  | _ => fun _ => some 0

/-- What an operation does to the table when its kernel calls succeed. -/
def tableStep (s : EventLoop) (op : EventOp) : Except Fault EventLoop :=
  match EventLoop.eventCtl { s with epoll := acceptingEpoll op } op with
  | .error e => .error e
  | .ok (t, _) => .ok t

/-- The descriptor of an operation. -/
def opFd : EventOp → Int
  | .add ev _ | .del ev | .mod ev _ => ev.fd
  | .stop fd => fd

/-- The descriptor is inside the table, and the mask is not empty. -/
def Inside (s : EventLoop) (op : EventOp) : Prop :=
  (0 ≤ opFd op ∧ opFd op < s.maxEvents) ∧ op.Valid

/-- `t` is `s` with another entry for one descriptor. -/
structure Changes (s t : EventLoop) (fd : Int) (a : Anfd) : Prop where
  maxEvents : t.maxEvents = s.maxEvents
  entry : ∀ fd', t.entry fd' = if fd' = fd then a else s.entry fd'

theorem changes_same {s t : EventLoop} (h : t.anfds = s.anfds) (fd : Int) :
    Changes s t fd (s.entry fd) := by
  constructor
  · rw [EventLoop.maxEvents, EventLoop.maxEvents, h]
  · intro fd'
    have hentry : t.entry fd' = s.entry fd' := by rw [EventLoop.entry, EventLoop.entry, h]
    rw [hentry]
    split
    · rename_i heq
      rw [heq]
    · rfl

theorem changes_store {s t : EventLoop} {fd : Int} {a : Anfd}
    (hfd : 0 ≤ fd ∧ fd < s.maxEvents) (h : t.anfds = (s.store fd a).anfds) : Changes s t fd a := by
  constructor
  · have hmax := maxEvents_store s fd a
    rwa [EventLoop.maxEvents, ← h] at hmax
  · intro fd'
    rw [← entry_store hfd, EventLoop.entry, EventLoop.entry, h]

theorem Changes.self {s t : EventLoop} {fd : Int} {a : Anfd} (h : Changes s t fd a) :
    t.entry fd = a := (h.entry fd).trans (if_pos rfl)

theorem Changes.formed {s t : EventLoop} {fd : Int} {a : Anfd} (h : Changes s t fd a)
    (hs : ∀ fd, (s.entry fd).Formed fd) (ha : a.Formed fd) (fd' : Int) :
    (t.entry fd').Formed fd' := by
  rw [h.entry]
  split
  · rename_i heq
    rwa [heq]
  · exact hs fd'

/-- ADD for a used entry. -/
theorem addInside_used {s : EventLoop} {ev first : Event} {rest : List Event}
    (hfd : 0 ≤ ev.fd ∧ ev.fd < s.maxEvents) (hused : (s.entry ev.fd).isused = 1)
    (hholds : (s.entry ev.fd).Holds ev.fd first rest) (hfree : s.epoll ev.fd = none) :
    ∃ t a, s.addInside ev true = .ok (t, true) ∧ Changes s t ev.fd a ∧
      (a = s.entry ev.fd ∨ a = { s.entry ev.fd with
        events := unionMask (first :: rest ++ [ev]), next := .events (first :: rest ++ [ev]) }) := by
  have hload : s.load ev.fd = .ok (s.entry ev.fd) := if_pos hfd
  have hfd' : ∀ a, 0 ≤ ev.fd ∧ ev.fd < (s.store ev.fd a).maxEvents := by
    intro a
    rwa [maxEvents_store]
  by_cases hmore : (s.entry ev.fd).events ||| ev.events = (s.entry ev.fd).events
  -- the cached mask has the bits already, and the list is left alone
  · have hlink : s.linkEvent ev = .ok (s, false) := by
      simp [linkEvent, hload, hused, hmore, bind, Except.bind]
    have hread : (s.entry ev.fd).next.read = .ok (first :: rest) := by
      rw [hholds.next]
      rfl
    have hrefresh : s.refreshEvents ev.fd = .ok (s.store ev.fd (s.entry ev.fd)) := by
      simp only [refreshEvents, hload, hread, bind, Except.bind]
      rw [← hholds.events]
    refine ⟨s.store ev.fd (s.entry ev.fd), _, ?_, changes_store hfd rfl, .inl rfl⟩
    simp only [addInside, hlink, hrefresh, bind, Except.bind, Bool.false_eq_true, false_and,
      if_false]
  -- the event goes to the end of the list, and the cached mask is computed again
  · let linked : Anfd := { s.entry ev.fd with next := .events (first :: rest ++ [ev]) }
    have hlink : s.linkEvent ev = .ok (s.store ev.fd linked, true) := by
      simp [linkEvent, hload, hused, hholds.next, hmore, EventChain.read, bind, Except.bind, linked]
    have hload' : EventLoop.load { s.store ev.fd linked with
        epoll := Function.update s.epoll ev.fd (some (epollEvents ev.events)) } ev.fd =
          .ok linked := by
      refine (if_pos (hfd' linked)).trans (congrArg Except.ok ?_)
      exact (entry_store hfd linked ev.fd).trans (if_pos rfl)
    have hepoll : (s.store ev.fd linked).epoll = s.epoll := rfl
    refine ⟨{ s.store ev.fd { linked with events := unionMask (first :: rest ++ [ev]) } with
      epoll := Function.update s.epoll ev.fd (some (epollEvents ev.events)) },
      { linked with events := unionMask (first :: rest ++ [ev]) }, ?_, changes_store hfd rfl,
      .inr rfl⟩
    simp only [addInside, hlink, hepoll, bind, Except.bind, and_self, if_true, Epoll.add, hfree,
      refreshEvents, hload']
    simp [store, linked, EventChain.read]

/-- The entry that a DEL leaves when it meets the cached mask. -/
def Anfd.cleared (a : Anfd) (mask : Mask) (first : Event) (rest : List Event) : Anfd :=
  { a with
    events := a.events ^^^ mask
    next := .events (if a.events ^^^ mask = 0 then clearMask mask rest
      else first :: clearMask mask rest) }

/-- DEL for a used entry. -/
theorem deleteEvent_used {s : EventLoop} {ev first : Event} {rest : List Event}
    (hfd : 0 ≤ ev.fd ∧ ev.fd < s.maxEvents) (hused : (s.entry ev.fd).isused = 1)
    (hholds : (s.entry ev.fd).Holds ev.fd first rest) :
    ∃ t, s.deleteEvent ev = .ok (t, true) ∧ Changes s t ev.fd
      (if (s.entry ev.fd).events &&& ev.events = 0 then s.entry ev.fd
        else (s.entry ev.fd).cleared ev.events first rest) := by
  have hload : s.load ev.fd = .ok (s.entry ev.fd) := if_pos hfd
  have hrange : ¬ (ev.fd < 0 ∨ ev.fd > s.maxEvents) := by omega
  by_cases hmiss : (s.entry ev.fd).events &&& ev.events = 0
  · rw [if_pos hmiss]
    refine ⟨s, ?_, changes_same rfl ev.fd⟩
    simp only [deleteEvent, if_neg hrange, hload, hused, if_true, hmiss, bind, Except.bind]
  · rw [if_neg hmiss]
    refine ⟨{ s.store ev.fd ((s.entry ev.fd).cleared ev.events first rest) with
      epoll := (s.epoll.del ev.fd).getD s.epoll }, ?_, changes_store hfd rfl⟩
    simp only [deleteEvent, if_neg hrange, hload, hused, if_true, if_neg hmiss, hholds.next,
      EventChain.read, Anfd.cleared, bind, Except.bind]
    rfl

/-- The mask of a DEL that meets the cached mask, but not the list head, leaves the other bit. -/
theorem deleteEvent_formed {a : Anfd} {fd : Int} {first : Event} {rest : List Event} {mask : Mask}
    (hholds : a.Holds fd first rest) (hmask : mask.Valid) (hmeet : a.events &&& mask ≠ 0)
    (hdisjoint : first.events &&& mask = 0) :
    (a.cleared mask first rest).Holds fd first (clearMask mask rest) ∧
      a.events ^^^ mask = a.events &&& ~~~mask := by
  have hfirst := (hholds.valid first (List.mem_cons_self ..)).1
  have hunion : Mask.Valid a.events := by
    rw [hholds.events]
    exact unionMask_valid hfirst fun e he => (hholds.valid e (List.mem_cons_of_mem _ he)).1
  have hsub : first.events ||| a.events = a.events := by
    rw [hholds.events]
    exact or_unionMask_of_mem (List.mem_cons_self ..)
  -- with two bits in all: one is the head's, and the mask is the other
  have hbits : a.events ^^^ mask = first.events ∧ a.events ^^^ mask = a.events &&& ~~~mask := by
    generalize a.events = events at *
    generalize first.events = kept at *
    rcases hfirst.cases with rfl | rfl | rfl <;> rcases hmask.cases with rfl | rfl | rfl <;>
      rcases hunion.cases with rfl | rfl | rfl <;> revert hdisjoint hmeet hsub <;> decide
  have hcleared := clearMask_disjoint hfirst hmask hdisjoint
    fun e he => (hholds.valid e (List.mem_cons_of_mem _ he)).1
  have hall : ∀ e ∈ first :: clearMask mask rest, e.events = first.events := by
    intro e he
    rcases List.mem_cons.mp he with rfl | hmem
    · rfl
    · exact (hcleared e hmem).1
  refine ⟨⟨?_, ?_, ?_⟩, hbits.2⟩
  · have hne : a.events ^^^ mask ≠ 0 := by
      rw [hbits.1]
      exact hfirst.1
    simp only [Anfd.cleared, if_neg hne]
  · rw [unionMask_eq hall]
    exact hbits.1
  · intro e he
    rcases List.mem_cons.mp he with rfl | hmem
    · exact hholds.valid e (List.mem_cons_self ..)
    · obtain ⟨hevents, d, hd, hfd⟩ := hcleared e hmem
      rw [hevents, hfd]
      exact ⟨hfirst, (hholds.valid d (List.mem_cons_of_mem _ hd)).2⟩

/-- A DEL that meets the list head leaves an entry that is not well formed. -/
theorem not_wellFormed_cleared {a : Anfd} {fd : Int} {first : Event} {rest : List Event}
    {mask : Mask} (hused : a.isused = 1) (hholds : a.Holds fd first rest) (hmask : mask.Valid)
    (hhead : first.events &&& mask ≠ 0) : ¬ (a.cleared mask first rest).WellFormed fd := by
  intro hformed
  have hfirst := (hholds.valid first (List.mem_cons_self ..)).1
  have hunion : Mask.Valid a.events := by
    rw [hholds.events]
    exact unionMask_valid hfirst fun e he => (hholds.valid e (List.mem_cons_of_mem _ he)).1
  have hsub : first.events ||| a.events = a.events := by
    rw [hholds.events]
    exact or_unionMask_of_mem (List.mem_cons_self ..)
  obtain ⟨es, hnext, hne, hes, hevents⟩ := hformed hused
  simp only [Anfd.cleared, EventChain.events.injEq] at hnext hevents
  by_cases hzero : a.events ^^^ mask = 0
  -- the cached mask is empty, and what is left is not
  · obtain ⟨e, es, rfl⟩ := List.exists_cons_of_ne_nil hne
    have hmem := or_unionMask_of_mem (List.mem_cons_self (a := e) (l := es))
    rw [← hevents, hzero] at hmem
    have hor : e.events ||| 0 = e.events := BitVec.or_zero
    exact (hes e (List.mem_cons_self ..)).1 (hor.symm.trans hmem)
  -- the list head still has its bits, and the cached mask has lost some of them
  · rw [if_neg hzero] at hnext
    have hmem := or_unionMask_of_mem (hnext ▸ List.mem_cons_self (a := first))
    rw [← hevents] at hmem
    generalize a.events = events at *
    generalize first.events = kept at *
    rcases hfirst.cases with rfl | rfl | rfl <;> rcases hmask.cases with rfl | rfl | rfl <;>
      rcases hunion.cases with rfl | rfl | rfl <;> revert hhead hmem hsub <;> decide

/-- MOD for a used entry. -/
theorem modEvent_used {s : EventLoop} {ev : Event} (hfd : 0 ≤ ev.fd ∧ ev.fd < s.maxEvents)
    (hused : (s.entry ev.fd).isused = 1) {first : Event} {rest : List Event}
    (hholds : (s.entry ev.fd).Holds ev.fd first rest) (reallocOk : Bool) :
    ∃ t ok, s.modEvent ev reallocOk = .ok (t, ok) ∧
      Changes s t ev.fd ((s.entry ev.fd).withFirst ev) := by
  have hload : s.load ev.fd = .ok (s.entry ev.fd) := if_pos hfd
  have hrange : ¬ (ev.fd < 0 ∨ ev.fd > s.maxEvents) := by omega
  have hread : (s.entry ev.fd).next.read = .ok (first :: rest) := by
    rw [hholds.next]
    rfl
  have hload₂ : (s.store ev.fd ((s.entry ev.fd).withFirst ev)).load ev.fd =
      .ok ((s.entry ev.fd).withFirst ev) := by
    refine (if_pos (by simpa using hfd)).trans (congrArg Except.ok ?_)
    exact (entry_store hfd _ _).trans (if_pos rfl)
  have hrange₂ : ¬ (ev.fd < 0 ∨
      ev.fd > (s.store ev.fd ((s.entry ev.fd).withFirst ev)).maxEvents) := by
    simpa using hrange
  have hmod : s.modEvent ev reallocOk =
      (s.store ev.fd ((s.entry ev.fd).withFirst ev)).modEvOnly ev := by
    simp only [modEvent, if_neg hrange, hload, hused, if_true, hread,
      emptied_addEvent hfd reallocOk, bind, Except.bind]
  have hused₂ : ((s.entry ev.fd).withFirst ev).isused = 1 := rfl
  rw [hmod]
  simp only [modEvOnly, if_neg hrange₂, hload₂, hused₂, if_true, bind, Except.bind]
  cases (s.store ev.fd ((s.entry ev.fd).withFirst ev)).epoll.mod ev.fd (epollEvents ev.events) with
  | none => exact ⟨_, false, rfl, changes_store hfd rfl⟩
  | some epoll => exact ⟨_, true, rfl, changes_store hfd rfl⟩

theorem withFirst_formed (a : Anfd) {ev : Event} (hmask : Mask.Valid ev.events) :
    (a.withFirst ev).Formed ev.fd := by
  intro _
  refine ⟨ev, [], rfl, (unionMask_singleton ev).symm, fun e he => ?_⟩
  cases List.mem_singleton.mp he
  exact ⟨hmask, rfl⟩

/-! ## Steps -/

/-- What a run keeps of a table. -/
def TableFormed (s : EventLoop) : Prop := ∀ fd, (s.entry fd).Formed fd

theorem TableFormed.wellFormed {s : EventLoop} (h : TableFormed s) : s.WellFormed :=
  fun fd => (h fd).wellFormed

/-- A DEL misses the cached mask of its descriptor, or the head of its list. -/
def DelMissesHead (s : EventLoop) : EventOp → Prop
  | .del ev => (s.entry ev.fd).Misses ev.events
  | _ => True

/-- A DEL leaves exactly the bits that are not in its mask. -/
def DelExact (s : EventLoop) : EventOp → Prop
  | .del ev => (s.entry ev.fd).isused = 1 → ∀ t, tableStep s (.del ev) = .ok t →
      (t.entry ev.fd).events = (s.entry ev.fd).events &&& ~~~ev.events
  | _ => True

/-- **ADD**: the entry is well formed afterwards. -/
theorem tableStep_add {s : EventLoop} (h : TableFormed s) {ev : Event} {reallocOk : Bool}
    (hinside : Inside s (.add ev reallocOk)) :
    ∃ t, tableStep s (.add ev reallocOk) = .ok t ∧ TableFormed t := by
  obtain ⟨hfd, hmask⟩ := hinside
  have haddEvent : EventLoop.addEvent { s with epoll := fun _ => none } ev true reallocOk =
      EventLoop.addInside { s with epoll := fun _ => none } ev true :=
    addEvent_inside (s := { s with epoll := fun _ => none }) hfd.2 true reallocOk
  have hadd : tableStep s (.add ev reallocOk) =
      match EventLoop.addInside { s with epoll := fun _ => none } ev true with
      | .error e => .error e
      | .ok (t, _) => .ok t := by
    rw [← haddEvent]
    rfl
  rw [hadd]
  -- an unused entry is filled, a used one gets another event
  by_cases hused : (s.entry ev.fd).isused = 1
  · obtain ⟨first, rest, hholds⟩ := h ev.fd hused
    obtain ⟨t, a, hok, hchanges, ha⟩ := addInside_used (s := { s with epoll := fun _ => none })
      hfd hused hholds rfl
    rw [hok]
    refine ⟨t, rfl, hchanges.formed h ?_⟩
    rcases ha with rfl | rfl
    · exact h ev.fd
    · intro _
      refine ⟨first, rest ++ [ev], rfl, rfl, fun e he => ?_⟩
      rcases List.mem_append.mp (List.cons_append ▸ he : e ∈ (first :: rest) ++ [ev]) with hold | hnew
      · exact hholds.valid e hold
      · cases List.mem_singleton.mp hnew
        exact ⟨hmask, rfl⟩
  · obtain ⟨linked, hok⟩ := addInside_unused (s := { s with epoll := fun _ => none }) hfd hused true
    rw [hok]
    exact ⟨_, rfl, (changes_store hfd rfl).formed h (withFirst_formed _ hmask)⟩

/-- **DEL**: the table is well formed afterwards exactly when the mask misses the list head. -/
theorem tableStep_del {s : EventLoop} (h : TableFormed s) {ev : Event}
    (hinside : Inside s (.del ev)) : ∃ t, tableStep s (.del ev) = .ok t ∧
      (DelMissesHead s (.del ev) → TableFormed t ∧ DelExact s (.del ev)) ∧
        (t.WellFormed → DelMissesHead s (.del ev)) := by
  obtain ⟨hfd, hmask⟩ := hinside
  have hfd : 0 ≤ ev.fd ∧ ev.fd < s.maxEvents := hfd
  -- a DEL of an unused entry does nothing
  by_cases hused : (s.entry ev.fd).isused = 1
  · obtain ⟨first, rest, hholds⟩ := h ev.fd hused
    have hhead : (s.entry ev.fd).head = some first := by
      rw [Anfd.head, hholds.next]
    obtain ⟨t, hok, hraw⟩ := deleteEvent_used (s := { s with epoll := fun _ => some 0 })
      hfd hused hholds
    have hchanges : Changes s t ev.fd (if (s.entry ev.fd).events &&& ev.events = 0 then
        s.entry ev.fd else (s.entry ev.fd).cleared ev.events first rest) :=
      ⟨hraw.maxEvents, hraw.entry⟩
    have hstep : tableStep s (.del ev) = .ok t := by
      simp only [tableStep, eventCtl, acceptingEpoll, hok]
    refine ⟨t, hstep, ?_, ?_⟩
    · intro hmisses
      have hkeeps : (t.entry ev.fd).Formed ev.fd ∧ (t.entry ev.fd).events =
          (s.entry ev.fd).events &&& ~~~ev.events := by
        rw [hchanges.self]
        by_cases hmiss : (s.entry ev.fd).events &&& ev.events = 0
        · rw [if_pos hmiss]
          refine ⟨h ev.fd, (and_not_of_and_eq_zero hmiss).symm⟩
        · have hdisjoint : first.events &&& ev.events = 0 :=
            ((hmisses.resolve_left (not_not.mpr hused)).resolve_left hmiss) first hhead
          obtain ⟨hcleared, hexact⟩ := deleteEvent_formed hholds hmask hmiss hdisjoint
          rw [if_neg hmiss]
          exact ⟨fun _ => ⟨_, _, hcleared⟩, hexact⟩
      refine ⟨fun fd' => ?_, fun _ t' ht' => ?_⟩
      · rw [hchanges.entry]
        split
        · rename_i heq
          rw [heq, ← hchanges.self]
          exact hkeeps.1
        · exact h fd'
      · cases ht'.symm.trans hstep
        exact hkeeps.2
    · intro hformed
      refine .inr (or_iff_not_imp_left.mpr fun hmiss => ?_)
      rw [hhead]
      intro e he
      cases he
      -- the loop starts behind the head, so a mask that meets the head is not cleared there
      by_contra hmeets
      have hself := hformed ev.fd
      rw [hchanges.self, if_neg hmiss] at hself
      exact not_wellFormed_cleared hused hholds hmask hmeets hself
  · have hload : EventLoop.load { s with epoll := fun _ => some 0 } ev.fd = .ok (s.entry ev.fd) :=
      if_pos hfd
    have hrange : ¬ (ev.fd < 0 ∨ ev.fd > EventLoop.maxEvents { s with epoll := fun _ => some 0 }) := by
      change ¬ (ev.fd < 0 ∨ ev.fd > s.maxEvents)
      omega
    refine ⟨{ s with epoll := fun _ => some 0 }, ?_, fun _ => ⟨h, fun hused' => absurd hused' hused⟩,
      fun _ => .inl hused⟩
    simp only [tableStep, eventCtl, acceptingEpoll, deleteEvent, if_neg hrange, hload, hused,
      if_false, bind, Except.bind]

/-- **MOD**: the entry is well formed afterwards. -/
theorem tableStep_mod {s : EventLoop} (h : TableFormed s) {ev : Event} {reallocOk : Bool}
    (hinside : Inside s (.mod ev reallocOk)) :
    ∃ t, tableStep s (.mod ev reallocOk) = .ok t ∧ TableFormed t := by
  obtain ⟨hfd, hmask⟩ := hinside
  have hfd : 0 ≤ ev.fd ∧ ev.fd < s.maxEvents := hfd
  by_cases hused : (s.entry ev.fd).isused = 1
  · obtain ⟨first, rest, hholds⟩ := h ev.fd hused
    obtain ⟨t, ok, hok, hchanges⟩ := modEvent_used (s := { s with epoll := fun _ => some 0 })
      hfd hused hholds reallocOk
    refine ⟨t, ?_, hchanges.formed h (withFirst_formed _ hmask)⟩
    simp only [tableStep, eventCtl, acceptingEpoll, hok]
  · have hload : EventLoop.load { s with epoll := fun _ => some 0 } ev.fd = .ok (s.entry ev.fd) :=
      if_pos hfd
    have hrange : ¬ (ev.fd < 0 ∨ ev.fd > EventLoop.maxEvents { s with epoll := fun _ => some 0 }) := by
      change ¬ (ev.fd < 0 ∨ ev.fd > s.maxEvents)
      omega
    refine ⟨{ s with epoll := fun _ => some 0 }, ?_, h⟩
    simp only [tableStep, eventCtl, acceptingEpoll, modEvent, if_neg hrange, hload, hused,
      if_false, bind, Except.bind]

/-- **`event_stop`**: the entry is not used any more. -/
theorem tableStep_stop {s : EventLoop} (h : TableFormed s) {fd : Int}
    (hinside : Inside s (.stop fd)) : ∃ t, tableStep s (.stop fd) = .ok t ∧ TableFormed t := by
  obtain ⟨hfd, -⟩ := hinside
  have hload : EventLoop.load { s with epoll := fun _ => some 0 } fd = .ok (s.entry fd) := if_pos hfd
  by_cases hused : (s.entry fd).isused = 1
  · obtain ⟨first, rest, hholds⟩ := h fd hused
    have hchanges : Changes s (s.store fd { s.entry fd with isused := 0, next := .freed }) fd
      { s.entry fd with isused := 0, next := .freed } := changes_store hfd rfl
    refine ⟨{ s.store fd { s.entry fd with isused := 0, next := .freed } with
      epoll := Function.update (fun _ => some 0) fd none }, ?_,
      -- `isused` is 0 afterwards, and nothing is asked of such an entry
      hchanges.formed h fun hzero => absurd (show (0 : Int) = 1 from hzero) (by decide)⟩
    simp only [tableStep, eventCtl, acceptingEpoll, eventStop, hload, hused, if_true, hholds.next,
      EventChain.read, bind, Except.bind]
    rfl
  · refine ⟨{ s with epoll := fun _ => some 0 }, ?_, h⟩
    simp only [tableStep, eventCtl, acceptingEpoll, eventStop, hload, hused, if_false, bind,
      Except.bind]

/-- **Step**: nothing fails, and only a DEL that meets a list head harms the table. -/
theorem TableFormed.step {s : EventLoop} (h : TableFormed s) {op : EventOp}
    (hinside : Inside s op) : ∃ t, tableStep s op = .ok t ∧
      (DelMissesHead s op → TableFormed t ∧ DelExact s op) ∧ (t.WellFormed → DelMissesHead s op) := by
  cases op with
  | add ev reallocOk =>
    obtain ⟨t, hstep, hformed⟩ := tableStep_add h hinside
    exact ⟨t, hstep, fun _ => ⟨hformed, trivial⟩, fun _ => trivial⟩
  | del ev => exact tableStep_del h hinside
  | mod ev reallocOk =>
    obtain ⟨t, hstep, hformed⟩ := tableStep_mod h hinside
    exact ⟨t, hstep, fun _ => ⟨hformed, trivial⟩, fun _ => trivial⟩
  | stop fd =>
    obtain ⟨t, hstep, hformed⟩ := tableStep_stop h hinside
    exact ⟨t, hstep, fun _ => ⟨hformed, trivial⟩, fun _ => trivial⟩

theorem tableFormed_init (shutdownfd : Int) : TableFormed (EventLoop.init shutdownfd) := by
  intro fd hused
  rw [entry_init] at hused
  exact absurd hused (by decide)

/-! ## Runs -/

/-- No step of the run fails, all its states are well formed, and its DELs are exact. -/
def StaysFormed (s : EventLoop) (ops : List EventOp) : Prop :=
  ∃ t, run tableStep s ops = .ok t ∧
    Along tableStep (fun s op => s.WellFormed ∧ DelExact s op) s ops ∧ t.WellFormed

/-- **The table is well formed** in all the states of a run, and no operation of it follows a null
list head, exactly when each DEL misses the cached mask of its descriptor or the head of its list. -/
theorem table_formed_iff (shutdownfd : Int) (ops : List EventOp)
    (hinside : Along tableStep Inside (EventLoop.init shutdownfd) ops) :
    StaysFormed (EventLoop.init shutdownfd) ops ↔
      Along tableStep DelMissesHead (EventLoop.init shutdownfd) ops := by
  have hiff : ∀ t, run tableStep (EventLoop.init shutdownfd) ops = .ok t →
      (Along tableStep (fun s _ => s.WellFormed) (EventLoop.init shutdownfd) ops ∧ t.WellFormed ↔
        Along tableStep DelMissesHead (EventLoop.init shutdownfd) ops) := by
    intro t hrun
    refine always_iff_along (fun _ h => TableFormed.wellFormed h) (fun s op t h hinside hstep => ?_)
      (tableFormed_init shutdownfd) hinside hrun
    obtain ⟨t', hstep', hkeeps, hneeds⟩ := TableFormed.step h hinside
    cases hstep'.symm.trans hstep
    exact ⟨fun hmisses => (hkeeps hmisses).1, hneeds⟩
  constructor
  · rintro ⟨t, hrun, halong, hlast⟩
    exact (hiff t hrun).mp ⟨halong.mono fun _ _ h => h.1, hlast⟩
  · intro hmisses
    have hboth := hinside.and hmisses
    obtain ⟨t, hrun, hformed⟩ := run_ok (fun s op h hop => by
      obtain ⟨t, hstep, hkeeps, -⟩ := TableFormed.step h hop.1
      exact ⟨t, hstep, (hkeeps hop.2).1⟩) (tableFormed_init shutdownfd) hboth
    have halong := hboth.invariant (I := TableFormed) (fun s op t h hop hstep => by
      obtain ⟨t', hstep', hkeeps, -⟩ := h.step hop.1
      cases hstep'.symm.trans hstep
      exact (hkeeps hop.2).1) (tableFormed_init shutdownfd)
    refine ⟨t, hrun, halong.mono fun s op ⟨h, hin, hmiss⟩ => ?_, hformed.wellFormed⟩
    obtain ⟨t, -, hkeeps, -⟩ := h.step hin
    exact ⟨h.wellFormed, (hkeeps hmiss).2⟩

set_option maxRecDepth 20000 in
/-- Writing is added to reading, and taken away again. -/
theorem table_formed_iff_write : StaysFormed (EventLoop.init 3)
    [.add (plainEvent 5 eventRead) true, .add (plainEvent 5 eventWrite) true,
      .del (plainEvent 5 eventWrite)] := by
  refine (table_formed_iff 3 _ ?_).mpr ?_
  · refine .cons_ok ⟨by decide, by decide, by decide⟩ rfl ?_
    refine .cons_ok ⟨by decide, by decide, by decide⟩ rfl ?_
    exact .cons_ok ⟨by decide, by decide, by decide⟩ rfl trivial
  · refine .cons_ok trivial rfl (.cons_ok trivial rfl (.cons_ok (.inr (.inr ?_)) rfl trivial))
    intro e he
    cases he
    decide

set_option maxRecDepth 20000 in
/-- Reading is taken away: the entry is used and has no events, and the next ADD follows `NULL`. -/
theorem add_after_del_follows_null :
    ¬ StaysFormed (EventLoop.init 3)
        [.add (plainEvent 5 eventRead) true, .del (plainEvent 5 eventRead)] ∧
      run tableStep (EventLoop.init 3) [.add (plainEvent 5 eventRead) true,
        .del (plainEvent 5 eventRead), .add (plainEvent 5 eventRead) true] =
          .error .nullPointer := by
  refine ⟨?_, rfl⟩
  rintro ⟨t, hrun, -, hlast⟩
  cases hrun
  obtain ⟨es, hnext, hne, -⟩ := hlast 5 rfl
  cases hnext
  exact hne rfl

end Sails.Base
