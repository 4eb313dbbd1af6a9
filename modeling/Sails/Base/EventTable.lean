import Sails.Base.EventLoop

/-!
# Agreement of the event table with epoll

- `Agrees`: what the table says about each descriptor is what the kernel has registered
- `TableSynced`: the invariant of runs in which no DEL splits a mask
- `eventCtl_synced`: one operation that returns true keeps it
- `table_agrees_with_epoll`: so does every run of such operations
-/

namespace Sails.Base

open TransitionRun
open EventLoop

/-! ## Agreement -/

/-- The events the table holds for an entry. -/
def Anfd.held (a : Anfd) : List Event :=
  if a.isused = 1 then
    match a.next with
    | .events es => es
    | .freed => []
  else []

/-- The registration of a descriptor is what its entry says. -/
structure Anfd.Agrees (a : Anfd) (registered : Option Mask) : Prop where
  isSome_iff : registered.isSome ↔ a.held ≠ []
  mask_eq : ∀ mask, registered = some mask →
    mask = epollEvents (unionMask a.held) ∧ a.events = unionMask a.held

/-- Table and kernel agree on every descriptor except the loop's own socket, which `init`
registers without an entry. -/
def EventLoop.Agrees (s : EventLoop) : Prop :=
  ∀ fd, fd ≠ s.shutdownfd → (s.entry fd).Agrees (s.epoll fd)

/-- Why a call did not return true. -/
inductive Refused where
  | fault (f : Fault)
  | returnedFalse

/-- A call that returns true. -/
def succeed (s : EventLoop) (op : EventOp) : Except Refused EventLoop :=
  match s.eventCtl op with
  | .error f => .error (.fault f)
  | .ok (t, true) => .ok t
  | .ok (_, false) => .error .returnedFalse

theorem succeed_eq_ok {s t : EventLoop} {op : EventOp} (h : succeed s op = .ok t) :
    s.eventCtl op = .ok (t, true) := by
  unfold succeed at h
  split at h
  · cases h
  · cases h; assumption
  · cases h

/-- A non-empty mask of READ and WRITE bits. -/
def Mask.Valid (mask : Mask) : Prop := mask ≠ 0 ∧ mask &&& (eventRead ||| eventWrite) = mask

/-- The mask an operation is called with is valid. -/
def EventLoop.EventOp.Valid : EventOp → Prop
  | .add ev _ => Mask.Valid ev.events
  | .del ev => Mask.Valid ev.events
  | .mod ev _ => Mask.Valid ev.events
  | .stop _ => True

/-- A DEL misses the cached mask of its descriptor, or is all of it. -/
def DelWhole (s : EventLoop) : EventOp → Prop
  | .del ev => (s.entry ev.fd).isused ≠ 1 ∨ (s.entry ev.fd).events &&& ev.events = 0 ∨
      (s.entry ev.fd).events = ev.events
  | _ => True

/-! ## The invariant -/

/-- The states an entry can have next to its registration while no DEL splits a mask. -/
inductive Anfd.Synced : Anfd → Option Mask → Prop
  | unused {a : Anfd} (h : a.isused ≠ 1) : Synced a none
  | emptied {a : Anfd} (hused : a.isused = 1) (hnext : a.next = .events [])
      (hevents : a.events = 0) : Synced a none
  | single {a : Anfd} {e : Event} (hused : a.isused = 1) (hnext : a.next = .events [e])
      (hevents : a.events = e.events) (hne : e.events ≠ 0) :
      Synced a (some (epollEvents e.events))

@[simp] theorem unionMask_singleton (e : Event) : unionMask [e] = e.events := by
  simp [unionMask]

theorem Anfd.Synced.agrees {a : Anfd} {registered : Option Mask} (h : a.Synced registered) :
    a.Agrees registered := by
  cases h with
  | unused hunused => exact ⟨by simp [Anfd.held, hunused], by simp⟩
  | emptied hused hnext hevents => exact ⟨by simp [Anfd.held, hused, hnext], by simp⟩
  | @single e hused hnext hevents hne =>
    have hheld : a.held = [e] := by simp [Anfd.held, hused, hnext]
    refine ⟨by simp [hheld], fun mask hmask => ?_⟩
    cases hmask
    rw [hheld, unionMask_singleton]
    exact ⟨rfl, hevents⟩

/-- The invariant of a whole loop. -/
structure TableSynced (s : EventLoop) : Prop where
  entry : ∀ fd, fd ≠ s.shutdownfd → (s.entry fd).Synced (s.epoll fd)
  shutdown_unused : (s.entry s.shutdownfd).isused ≠ 1
  shutdown_registered : (s.epoll s.shutdownfd).isSome

theorem TableSynced.agrees {s : EventLoop} (h : TableSynced s) : s.Agrees :=
  fun fd hfd => (h.entry fd hfd).agrees

/-! ## Entries -/

theorem load_eq_ok {s : EventLoop} {fd : Int} {a : Anfd} (h : s.load fd = .ok a) :
    (0 ≤ fd ∧ fd < s.maxEvents) ∧ a = s.entry fd := by
  unfold EventLoop.load at h
  split at h
  · cases h
    exact ⟨by assumption, rfl⟩
  · cases h

/-- What is done with an entry is done inside the table. -/
theorem ok_of_load {α : Type} {s : EventLoop} {fd : Int} {f : Anfd → Except Fault α} {r : α}
    (h : (s.load fd >>= f) = .ok r) : (0 ≤ fd ∧ fd < s.maxEvents) ∧ f (s.entry fd) = .ok r := by
  obtain ⟨a, hload, h⟩ := ok_of_bind h
  obtain ⟨hfd, rfl⟩ := load_eq_ok hload
  exact ⟨hfd, h⟩

theorem entry_store {s : EventLoop} {fd : Int} (h : 0 ≤ fd ∧ fd < s.maxEvents) (a : Anfd)
    (fd' : Int) : (s.store fd a).entry fd' = if fd' = fd then a else s.entry fd' := by
  obtain ⟨h0, hlt⟩ := h
  have hidx : fd.toNat < s.anfds.length := by
    simp only [maxEvents] at hlt
    omega
  simp only [EventLoop.entry, store, List.getD_eq_getElem?_getD]
  by_cases hfd : fd' = fd
  · subst hfd
    simp [h0, hidx]
  · by_cases h0' : 0 ≤ fd'
    · have hne : fd.toNat ≠ fd'.toNat := by omega
      simp [h0', hfd, hne]
    · simp [h0', hfd]

@[simp] theorem maxEvents_store (s : EventLoop) (fd : Int) (a : Anfd) :
    (s.store fd a).maxEvents = s.maxEvents := by
  simp [maxEvents, store]

@[simp] theorem store_store (s : EventLoop) (fd : Int) (a b : Anfd) :
    (s.store fd a).store fd b = s.store fd b := by
  simp [store]

theorem lt_growOnce (n : Nat) : n < growOnce n := by
  unfold growOnce
  omega

theorem le_growCount {needCnt cur newcnt : Nat} (h : growCount needCnt cur = .ok newcnt) :
    needCnt ≤ newcnt ∧ cur ≤ newcnt := by
  induction cur using growCount.induct needCnt with
  | case1 cur hover =>
    rw [growCount, if_pos hover] at h
    cases h
  | case2 cur hover hgt ih =>
    have hlt := lt_growOnce cur
    rw [growCount, if_neg hover, if_pos hgt] at h
    have hle := ih h
    omega
  | case3 cur hover hle =>
    have hlt := lt_growOnce cur
    rw [growCount, if_neg hover, if_neg hle] at h
    cases h
    omega

/-- A table with fresh entries behind the old ones. -/
def EventLoop.grown (s : EventLoop) (newcnt : Nat) : EventLoop :=
  { s with anfds := s.anfds ++ List.replicate (newcnt - s.anfds.length) Anfd.fresh }

theorem entry_grown (s : EventLoop) (newcnt : Nat) (fd : Int) :
    (s.grown newcnt).entry fd = s.entry fd := by
  simp only [EventLoop.grown, EventLoop.entry, List.getD_eq_getElem?_getD]
  split
  · by_cases hlt : fd.toNat < s.anfds.length
    · rw [List.getElem?_append_left hlt]
    · rw [List.getElem?_append_right (by omega), List.getElem?_replicate,
        List.getElem?_eq_none (by omega)]
      split <;> rfl
  · rfl

theorem length_grown {s : EventLoop} {newcnt : Nat} (h : s.anfds.length ≤ newcnt) :
    (s.grown newcnt).anfds.length = newcnt := by
  simp only [EventLoop.grown, List.length_append, List.length_replicate]
  omega

/-- The size that `add_event` computes for a descriptor behind the table. -/
def EventLoop.GrowsTo (s : EventLoop) (fd : Int) (newcnt : Nat) : Prop :=
  fd < intMax ∧ growCount (fd + 1).toNat s.anfds.length = .ok newcnt

theorem EventLoop.GrowsTo.le {s : EventLoop} {fd : Int} {newcnt : Nat} (h : s.GrowsTo fd newcnt) :
    fd < newcnt ∧ s.anfds.length ≤ newcnt := by
  obtain ⟨hneed, hcur⟩ := le_growCount h.2
  omega

theorem growCount_error {needCnt cur : Nat} {f : Fault} (h : growCount needCnt cur = .error f) :
    f = .overflow := by
  induction cur using growCount.induct needCnt with
  | case1 cur hover =>
    rw [growCount, if_pos hover] at h
    cases h
    rfl
  | case2 cur hover hgt ih =>
    rw [growCount, if_neg hover, if_pos hgt] at h
    exact ih h
  | case3 cur hover hle =>
    rw [growCount, if_neg hover, if_neg hle] at h
    cases h

/-- Behind the table there is a size, or its computation overflows. -/
theorem makeRoom_behind {s : EventLoop} {fd : Int} (hfd : s.maxEvents ≤ fd) (reallocOk : Bool) :
    (∃ newcnt, s.GrowsTo fd newcnt ∧
      s.makeRoom fd reallocOk = .ok (if reallocOk then some (s.grown newcnt) else none)) ∨
    (∀ newcnt, ¬s.GrowsTo fd newcnt) ∧ s.makeRoom fd reallocOk = .error .overflow := by
  rw [makeRoom, if_pos hfd]
  by_cases hint : fd ≥ intMax
  · rw [nextFd, if_pos hint]
    exact .inr ⟨fun newcnt h => absurd h.1 (Int.not_lt.mpr hint), rfl⟩
  have hgt : fd + 1 > s.maxEvents := Int.lt_add_one_iff.mpr hfd
  simp only [nextFd, if_neg hint, arrayNeedsize, if_pos hgt, bind, Except.bind]
  cases hgrow : growCount (fd + 1).toNat s.anfds.length with
  | error f =>
    rw [growCount_error hgrow]
    refine .inr ⟨fun newcnt h => ?_, rfl⟩
    cases hgrow.symm.trans h.2
  | ok newcnt =>
    refine .inl ⟨newcnt, ⟨Int.not_le.mp hint, hgrow⟩, ?_⟩
    cases reallocOk <;> rfl

/-- The table has the descriptor, or memory and a size to have it. -/
def EventLoop.HasRoom (s : EventLoop) (fd : Int) (reallocOk : Bool) : Prop :=
  fd < s.maxEvents ∨ reallocOk = true ∧ ∃ newcnt, s.GrowsTo fd newcnt

theorem makeRoom_inside {s : EventLoop} {fd : Int} (hfd : fd < s.maxEvents) (reallocOk : Bool) :
    s.makeRoom fd reallocOk = .ok (some s) :=
  if_neg (Int.not_le.mpr hfd)

theorem addEvent_inside {s : EventLoop} {ev : Event} (hfd : ev.fd < s.maxEvents)
    (ctlPoll reallocOk : Bool) : s.addEvent ev ctlPoll reallocOk = s.addInside ev ctlPoll := by
  rw [addEvent, makeRoom_inside hfd]
  rfl

/-- The table is grown when there is room; its entries stay, and there are fresh ones behind them. -/
theorem makeRoom_spec {s t : EventLoop} {fd : Int} {reallocOk : Bool}
    (h : s.makeRoom fd reallocOk = .ok (some t)) :
    (∀ fd, t.entry fd = s.entry fd) ∧ t.epoll = s.epoll ∧ t.shutdownfd = s.shutdownfd ∧
      s.maxEvents ≤ t.maxEvents ∧ fd < t.maxEvents ∧ s.HasRoom fd reallocOk := by
  by_cases hfd : fd < s.maxEvents
  · rw [makeRoom_inside hfd] at h
    cases h
    exact ⟨fun _ => rfl, rfl, rfl, Int.le_refl _, hfd, .inl hfd⟩
  · obtain ⟨newcnt, hgrows, hroom⟩ | ⟨-, hroom⟩ := makeRoom_behind (Int.not_lt.mp hfd) reallocOk
    · rw [hroom] at h
      cases reallocOk with
      | false => cases h
      | true =>
        cases h
        have hmax : (s.grown newcnt).maxEvents = newcnt :=
          congrArg Nat.cast (length_grown hgrows.le.2)
        rw [hmax]
        exact ⟨entry_grown s newcnt, rfl, rfl, Int.ofNat_le.mpr hgrows.le.2, hgrows.le.1,
          .inr ⟨rfl, newcnt, hgrows⟩⟩
    · rw [hroom] at h
      cases h

theorem EventLoop.HasRoom.makeRoom {s : EventLoop} {fd : Int} {reallocOk : Bool}
    (h : s.HasRoom fd reallocOk) : ∃ t, s.makeRoom fd reallocOk = .ok (some t) := by
  by_cases hfd : fd < s.maxEvents
  · exact ⟨s, makeRoom_inside hfd reallocOk⟩
  · obtain ⟨rfl, newcnt, hgrows⟩ := h.resolve_left hfd
    obtain ⟨newcnt, -, hroom⟩ | ⟨hnot, -⟩ := makeRoom_behind (Int.not_lt.mp hfd) true
    · exact ⟨s.grown newcnt, hroom⟩
    · exact absurd hgrows (hnot newcnt)

/-- `realloc` refuses only behind the table. -/
theorem makeRoom_none {s : EventLoop} {fd : Int} {reallocOk : Bool}
    (h : s.makeRoom fd reallocOk = .ok none) : s.maxEvents ≤ fd := by
  by_contra hlt
  rw [makeRoom_inside (Int.not_le.mp hlt)] at h
  cases h

/-! ## What one operation does -/

/-- Put an entry and a registration in the place of those of a descriptor. -/
def EventLoop.replace (s : EventLoop) (fd : Int) (a : Anfd) (registered : Option Mask) :
    EventLoop :=
  { s.store fd a with epoll := Function.update s.epoll fd registered }

theorem entry_replace {s : EventLoop} {fd : Int} (hfd : 0 ≤ fd ∧ fd < s.maxEvents) (a : Anfd)
    (registered : Option Mask) : (s.replace fd a registered).entry fd = a :=
  (entry_store hfd a fd).trans (if_pos rfl)

theorem epoll_replace (s : EventLoop) (fd : Int) (a : Anfd) (registered : Option Mask) :
    (s.replace fd a registered).epoll fd = registered :=
  Function.update_self ..

theorem TableSynced.replace {s : EventLoop} (hs : TableSynced s) {fd : Int}
    (hfd : 0 ≤ fd ∧ fd < s.maxEvents) (hshutdown : fd ≠ s.shutdownfd) {a : Anfd}
    {registered : Option Mask} (ha : a.Synced registered) :
    TableSynced (s.replace fd a registered) := by
  have hentry : ∀ fd', (s.replace fd a registered).entry fd' =
      if fd' = fd then a else s.entry fd' := entry_store hfd a
  have hepoll : ∀ fd', (s.replace fd a registered).epoll fd' =
      if fd' = fd then registered else s.epoll fd' := fun fd' => by
    simp [EventLoop.replace, Function.update_apply]
  have hself : (s.replace fd a registered).shutdownfd = s.shutdownfd := rfl
  refine ⟨fun fd' hfd' => ?_, ?_, ?_⟩
  · rw [hentry, hepoll]
    by_cases heq : fd' = fd
    · simpa [heq] using ha
    · simpa [heq] using hs.entry fd' hfd'
  · rw [hself, hentry, if_neg (Ne.symm hshutdown)]
    exact hs.shutdown_unused
  · rw [hself, hepoll, if_neg (Ne.symm hshutdown)]
    exact hs.shutdown_registered

/-- Growing the table changes no entry. -/
theorem TableSynced.makeRoom {s t : EventLoop} (hs : TableSynced s) {fd : Int}
    {reallocOk : Bool} (h : s.makeRoom fd reallocOk = .ok (some t)) : TableSynced t := by
  obtain ⟨hentry, hepoll, hshutdown, -⟩ := makeRoom_spec h
  refine ⟨fun fd hfd => ?_, ?_, ?_⟩
  · rw [hentry, hepoll]
    exact hs.entry fd (hshutdown ▸ hfd)
  · rw [hshutdown, hentry]
    exact hs.shutdown_unused
  · rw [hshutdown, hepoll]
    exact hs.shutdown_registered

/-- The first event of an unused entry: the entry after `add_event`. -/
def Anfd.withFirst (a : Anfd) (ev : Event) : Anfd :=
  { a with isused := 1, events := ev.events, next := .events [ev] }

/-- `add_event` for an unused entry. -/
theorem addInside_unused {s : EventLoop} {ev : Event} (hfd : 0 ≤ ev.fd ∧ ev.fd < s.maxEvents)
    (hunused : (s.entry ev.fd).isused ≠ 1) (ctlPoll : Bool) :
    ∃ linked : EventLoop, s.addInside ev ctlPoll =
      if ctlPoll then
        match s.epoll.add ev.fd (epollEvents ev.events) with
        | none => .ok (linked, false)
        | some epoll =>
          .ok ({ s.store ev.fd ((s.entry ev.fd).withFirst ev) with epoll := epoll }, true)
      else .ok (s.store ev.fd ((s.entry ev.fd).withFirst ev), true) := by
  have hload : s.load ev.fd = .ok (s.entry ev.fd) := if_pos hfd
  let a : Anfd := { s.entry ev.fd with isused := 1, next := .events [ev] }
  have hlink : s.linkEvent ev = .ok (s.store ev.fd a, true) := by
    simp [linkEvent, hload, hunused, bind, Except.bind, a]
  have hrefresh : ∀ epoll : Epoll,
      EventLoop.refreshEvents { s.store ev.fd a with epoll := epoll } ev.fd =
        .ok { s.store ev.fd ((s.entry ev.fd).withFirst ev) with epoll := epoll } := fun epoll => by
    have hfd' : 0 ≤ ev.fd ∧ ev.fd < (s.store ev.fd a).maxEvents := by simpa using hfd
    have hload' : EventLoop.load { s.store ev.fd a with epoll := epoll } ev.fd = .ok a := by
      refine (if_pos hfd').trans (congrArg Except.ok ?_)
      exact (entry_store hfd a ev.fd).trans (if_pos rfl)
    simp only [refreshEvents, hload', EventChain.read, bind, Except.bind, a, unionMask_singleton]
    simp [store, Anfd.withFirst]
  refine ⟨s.store ev.fd a, ?_⟩
  cases ctlPoll with
  | true =>
    have hepoll : (s.store ev.fd a).epoll = s.epoll := rfl
    simp only [addInside, hlink, hepoll, bind, Except.bind, and_self, if_true]
    cases s.epoll.add ev.fd (epollEvents ev.events) with
    | none => rfl
    | some epoll => simp only [hrefresh epoll]
  | false =>
    have hsame : EventLoop.refreshEvents (s.store ev.fd a) ev.fd =
        .ok (s.store ev.fd ((s.entry ev.fd).withFirst ev)) := hrefresh s.epoll
    simp only [addInside, hlink, hsame, bind, Except.bind, Bool.false_eq_true, and_false,
      if_false]

theorem withFirst_synced (a : Anfd) {ev : Event} (hne : ev.events ≠ 0) :
    (a.withFirst ev).Synced (some (epollEvents ev.events)) :=
  .single rfl rfl rfl hne

theorem linkEvent_of_outside {s : EventLoop} {ev : Event}
    (h : ¬ (0 ≤ ev.fd ∧ ev.fd < s.maxEvents)) : s.linkEvent ev = .error .outOfBounds := by
  have hload : s.load ev.fd = .error .outOfBounds := if_neg h
  simp [linkEvent, hload, bind, Except.bind]

/-- An ADD inside the table that returns true. -/
theorem addInside_synced {s t : EventLoop} (hs : TableSynced s) {ev : Event}
    (hne : ev.events ≠ 0) (h : s.addInside ev true = .ok (t, true)) : TableSynced t := by
  by_cases hfd : 0 ≤ ev.fd ∧ ev.fd < s.maxEvents
  swap
  · rw [addInside, linkEvent_of_outside hfd] at h
    cases h
  have hload : s.load ev.fd = .ok (s.entry ev.fd) := if_pos hfd
  by_cases hshutdown : ev.fd = s.shutdownfd
  -- the loop's own socket is registered already
  · obtain ⟨mask, hmask⟩ := Option.isSome_iff_exists.mp hs.shutdown_registered
    obtain ⟨linked, hadd⟩ := addInside_unused hfd (hshutdown ▸ hs.shutdown_unused) true
    rw [hadd, Epoll.add, hshutdown, hmask] at h
    cases h
  · have hentry := hs.entry ev.fd hshutdown
    generalize hreg : s.epoll ev.fd = registered at hentry
    cases hentry with
    | unused hunused =>
      obtain ⟨linked, hadd⟩ := addInside_unused hfd hunused true
      rw [hadd, Epoll.add, hreg] at h
      cases h
      exact hs.replace hfd hshutdown (withFirst_synced _ hne)
    | emptied hused hnext hevents =>
      -- the used entry without events: the list is followed through NULL
      have hmore : (s.entry ev.fd).events ||| ev.events ≠ (s.entry ev.fd).events := by
        rw [hevents]
        exact (BitVec.zero_or (x := ev.events)).symm ▸ hne
      have hlink : s.linkEvent ev = .error .nullPointer := by
        simp only [linkEvent, hload, hused, if_true, if_pos hmore, hnext, EventChain.read, bind,
          Except.bind]
      rw [addInside, hlink] at h
      cases h
    | @single e hused hnext hevents hne' =>
      by_cases hmore : (s.entry ev.fd).events ||| ev.events = (s.entry ev.fd).events
      -- nothing new: the cached mask is recomputed
      · have hlink : s.linkEvent ev = .ok (s, false) := by
          simp [linkEvent, hload, hused, hmore, bind, Except.bind]
        have hrefresh : s.refreshEvents ev.fd =
            .ok (s.store ev.fd { s.entry ev.fd with events := e.events }) := by
          simp [refreshEvents, hload, hnext, EventChain.read, bind, Except.bind]
        simp only [addInside, hlink, hrefresh, bind, Except.bind, Bool.false_eq_true, false_and,
          if_false] at h
        cases h
        have hsame := hs.replace hfd hshutdown
          (a := { s.entry ev.fd with events := e.events }) (.single hused hnext rfl hne')
        rwa [EventLoop.replace, ← hreg, Function.update_eq_self] at hsame
      -- a second event: epoll refuses the ADD
      · have hlink : s.linkEvent ev = .ok (s.store ev.fd { s.entry ev.fd with
            next := .events ([e] ++ [ev]) }, true) := by
          simp [linkEvent, hload, hused, hnext, hmore, EventChain.read, bind, Except.bind]
        simp only [addInside, hlink, bind, Except.bind, and_self, if_true, store, Epoll.add,
          hreg] at h
        cases h

/-- An ADD that returns true. -/
theorem addEvent_synced {s t : EventLoop} (hs : TableSynced s) {ev : Event}
    (hne : ev.events ≠ 0) {reallocOk : Bool}
    (h : s.addEvent ev true reallocOk = .ok (t, true)) : TableSynced t := by
  obtain ⟨r, hroom, h⟩ := ok_of_bind h
  cases r with
  | none => cases h
  | some grown => exact addInside_synced (hs.makeRoom hroom) hne h

theorem range_of_used {s : EventLoop} {fd : Int} (h : (s.entry fd).isused = 1) :
    0 ≤ fd ∧ fd < s.maxEvents := by
  by_contra hout
  have hfresh : s.entry fd = Anfd.fresh := by
    unfold EventLoop.entry
    split
    · rw [List.getD_eq_getElem?_getD, List.getElem?_eq_none]
      · rfl
      · simp only [maxEvents] at hout
        omega
    · rfl
  rw [hfresh] at h
  exact absurd h (by decide)

/-- A DEL that meets the mask of an entry with one event: the event stays unless its whole
mask goes, and the kernel forgets the descriptor. -/
theorem deleteEvent_single {s : EventLoop} {ev e : Event} {mask : Mask}
    (hused : (s.entry ev.fd).isused = 1) (hnext : (s.entry ev.fd).next = .events [e])
    (hhit : (s.entry ev.fd).events &&& ev.events ≠ 0) (hreg : s.epoll ev.fd = some mask) :
    s.deleteEvent ev = .ok (s.replace ev.fd
      { s.entry ev.fd with
        events := (s.entry ev.fd).events ^^^ ev.events
        next := .events (if (s.entry ev.fd).events ^^^ ev.events = 0 then [] else [e]) } none,
      true) := by
  have hfd := range_of_used hused
  have hload : s.load ev.fd = .ok (s.entry ev.fd) := if_pos hfd
  have hrange : ¬ (ev.fd < 0 ∨ ev.fd > s.maxEvents) := by omega
  simp only [deleteEvent, if_neg hrange, hload, hused, if_true, if_neg hhit, hnext,
    EventChain.read, clearMask, store, Epoll.del, hreg, Option.getD_some, bind, Except.bind]
  rfl

/-- A DEL that does not split a mask. -/
theorem deleteEvent_synced {s t : EventLoop} (hs : TableSynced s) {ev : Event}
    (hwhole : DelWhole s (.del ev)) (h : s.deleteEvent ev = .ok (t, true)) : TableSynced t := by
  by_cases hhit : (s.entry ev.fd).isused = 1 ∧ (s.entry ev.fd).events &&& ev.events ≠ 0
  · obtain ⟨hused, hmeet⟩ := hhit
    have hshutdown : ev.fd ≠ s.shutdownfd := fun heq => hs.shutdown_unused (heq ▸ hused)
    have hall : (s.entry ev.fd).events = ev.events :=
      (hwhole.resolve_left (not_not.mpr hused)).resolve_left hmeet
    have hentry := hs.entry ev.fd hshutdown
    generalize hreg : s.epoll ev.fd = registered at hentry
    cases hentry with
    | unused hunused => exact absurd hused hunused
    | emptied _ hnext hevents => exact absurd (by simp [hevents]) hmeet
    | @single e _ hnext hevents hne =>
      -- the whole mask goes: the entry keeps `isused` and loses its only event
      have hxor : (s.entry ev.fd).events ^^^ ev.events = 0 := by
        rw [hall]
        exact BitVec.xor_self
      rw [deleteEvent_single hused hnext hmeet hreg, hxor, if_pos rfl] at h
      cases h
      exact hs.replace (range_of_used hused) hshutdown (.emptied hused rfl rfl)
  -- the descriptor is unused or the mask misses it: nothing happens
  · have hsame : t = s := by
      unfold deleteEvent at h
      split at h
      · cases h
      obtain ⟨hfd, h⟩ := ok_of_load h
      by_cases hused : (s.entry ev.fd).isused = 1
      · have hmiss : (s.entry ev.fd).events &&& ev.events = 0 := by
          by_contra hmeet
          exact hhit ⟨hused, hmeet⟩
        rw [if_pos hused, if_pos hmiss] at h
        cases h
        rfl
      · rw [if_neg hused] at h
        cases h
        rfl
    exact hsame ▸ hs

/-- A DEL that splits a mask returns true and leaves an event in the table that the kernel
does not know. -/
theorem deleteEvent_split {s : EventLoop} (hs : TableSynced s) (ev : Event)
    (hsplit : ¬ DelWhole s (.del ev)) :
    ∃ t, s.deleteEvent ev = .ok (t, true) ∧ ¬ t.Agrees := by
  obtain ⟨hused, hmeet, hne⟩ : (s.entry ev.fd).isused = 1 ∧
      (s.entry ev.fd).events &&& ev.events ≠ 0 ∧ (s.entry ev.fd).events ≠ ev.events := by
    simpa only [DelWhole, not_or, not_not] using hsplit
  have hshutdown : ev.fd ≠ s.shutdownfd := fun heq => hs.shutdown_unused (heq ▸ hused)
  have hentry := hs.entry ev.fd hshutdown
  generalize hreg : s.epoll ev.fd = registered at hentry
  cases hentry with
  | unused hunused => exact absurd hused hunused
  | emptied _ hnext hevents => exact absurd (by simp [hevents]) hmeet
  | @single e _ hnext hevents _ =>
    refine ⟨_, deleteEvent_single hused hnext hmeet hreg, fun hagrees => ?_⟩
    have hself := (hagrees ev.fd hshutdown).isSome_iff
    rw [entry_replace (range_of_used hused), epoll_replace] at hself
    exact hne (by simpa [Anfd.held, hused] using hself)

/-- What `mod_event` does to the table: it empties the entry and adds the event to it. -/
theorem emptied_addEvent {s : EventLoop} {ev : Event}
    (hfd : 0 ≤ ev.fd ∧ ev.fd < s.maxEvents) (reallocOk : Bool) :
    (s.store ev.fd { s.entry ev.fd with isused := 0, next := .events [] }).addEvent ev false
      reallocOk = .ok (s.store ev.fd ((s.entry ev.fd).withFirst ev), true) := by
  have hentry : (s.store ev.fd { s.entry ev.fd with isused := 0, next := .events [] }).entry ev.fd =
      { s.entry ev.fd with isused := 0, next := .events [] } :=
    (entry_store hfd _ _).trans (if_pos rfl)
  obtain ⟨linked, hadd⟩ := addInside_unused
    (s := s.store ev.fd { s.entry ev.fd with isused := 0, next := .events [] })
    (by simpa using hfd) (by simp [hentry]) false
  rw [addEvent_inside (by simpa using hfd.2), hadd, hentry]
  simp [Anfd.withFirst]

/-- A MOD that returns true. -/
theorem modEvent_synced {s t : EventLoop} (hs : TableSynced s) {ev : Event}
    (hne : ev.events ≠ 0) {reallocOk : Bool} (h : s.modEvent ev reallocOk = .ok (t, true)) :
    TableSynced t := by
  unfold modEvent at h
  split at h
  · cases h
  rename_i hrange
  obtain ⟨hfd, h⟩ := ok_of_load h
  by_cases hused : (s.entry ev.fd).isused = 1
  · have hshutdown : ev.fd ≠ s.shutdownfd := fun heq => hs.shutdown_unused (heq ▸ hused)
    rw [if_pos hused] at h
    obtain ⟨es, -, h⟩ := ok_of_bind h
    -- the entry is emptied, then filled with the one event
    have hemptied := emptied_addEvent hfd reallocOk
    have hload : (s.store ev.fd ((s.entry ev.fd).withFirst ev)).load ev.fd =
        .ok ((s.entry ev.fd).withFirst ev) := by
      refine (if_pos (by simpa using hfd)).trans (congrArg Except.ok ?_)
      exact (entry_store hfd _ _).trans (if_pos rfl)
    have hrange₂ : ¬ (ev.fd < 0 ∨
        ev.fd > (s.store ev.fd ((s.entry ev.fd).withFirst ev)).maxEvents) := by
      simpa using hrange
    simp only [bind, Except.bind, if_true, hemptied, modEvOnly, if_neg hrange₂, hload] at h
    cases hreg : s.epoll ev.fd with
    | none =>
      simp only [Anfd.withFirst, if_true, store, Epoll.mod, hreg] at h
      cases h
    | some mask =>
      simp only [Anfd.withFirst, if_true, store, Epoll.mod, hreg] at h
      cases h
      exact hs.replace hfd hshutdown (withFirst_synced _ hne)
  · rw [if_neg hused] at h
    cases h

/-- `event_stop`. -/
theorem eventStop_synced {s t : EventLoop} (hs : TableSynced s) {fd : Int}
    (h : s.eventStop fd = .ok (t, true)) : TableSynced t := by
  unfold eventStop at h
  obtain ⟨hfd, h⟩ := ok_of_load h
  by_cases hused : (s.entry fd).isused = 1
  · have hshutdown : fd ≠ s.shutdownfd := fun heq => hs.shutdown_unused (heq ▸ hused)
    rw [if_pos hused] at h
    obtain ⟨es, -, h⟩ := ok_of_bind h
    have hdel : ((s.epoll.del fd).getD s.epoll) = Function.update s.epoll fd none := by
      unfold Epoll.del
      cases hreg : s.epoll fd with
      | none => simp [← hreg]
      | some mask => rfl
    simp only [store, hdel] at h
    cases h
    exact hs.replace hfd hshutdown (.unused (by simp))
  · rw [if_neg hused] at h
    cases h
    exact hs

/-- **One operation** that returns true keeps the table in step with the kernel. -/
theorem eventCtl_synced {s t : EventLoop} (hs : TableSynced s) {op : EventOp} (hvalid : op.Valid)
    (hwhole : DelWhole s op) (h : s.eventCtl op = .ok (t, true)) : TableSynced t := by
  cases op with
  | add ev reallocOk => exact addEvent_synced hs hvalid.1 h
  | del ev => exact deleteEvent_synced hs hwhole h
  | mod ev reallocOk => exact modEvent_synced hs hvalid.1 h
  | stop fd => exact eventStop_synced hs h

/-! ## Runs -/

theorem entry_init (shutdownfd fd : Int) : (EventLoop.init shutdownfd).entry fd = Anfd.fresh := by
  simp only [EventLoop.entry, EventLoop.init, List.getD_eq_getElem?_getD, List.getElem?_replicate]
  split
  · split <;> rfl
  · rfl

theorem maxEvents_init (shutdownfd : Int) :
    (EventLoop.init shutdownfd).maxEvents = initEvents := by
  simp [EventLoop.init, maxEvents]

theorem tableSynced_init (shutdownfd : Int) : TableSynced (EventLoop.init shutdownfd) where
  entry fd hfd := by
    have hnone : (EventLoop.init shutdownfd).epoll fd = none :=
      Function.update_of_ne (show fd ≠ shutdownfd from hfd) _ (fun _ => none)
    rw [entry_init, hnone]
    exact .unused (by decide)
  shutdown_unused := by rw [entry_init]; decide
  shutdown_registered := by simp [EventLoop.init]

/-- **Table and kernel agree** after every run of operations with valid masks that all
returned true and of which no DEL splits the mask of its descriptor. -/
theorem table_agrees_with_epoll (shutdownfd : Int) (ops : List EventOp) (s : EventLoop)
    (hvalid : ∀ op ∈ ops, op.Valid)
    (hwhole : Along succeed DelWhole (EventLoop.init shutdownfd) ops)
    (hrun : run succeed (EventLoop.init shutdownfd) ops = .ok s) : s.Agrees := by
  have hsynced : TableSynced s :=
    run_invariant (P := fun s op => op.Valid ∧ DelWhole s op)
      (fun s op t hs hop h => eventCtl_synced hs hop.1 hop.2 (succeed_eq_ok h))
      (tableSynced_init shutdownfd) ((along_of_forall hvalid).and hwhole) hrun
  exact hsynced.agrees

/-- An event for `fd` with the given mask. -/
def plainEvent (fd : Int) (events : Mask) : Event :=
  { fd := fd, events := events, edata := 0, cb := none, data := 0 }

/-- The loop after the first ADD. -/
def afterFirstAdd (shutdownfd : Int) (ev : Event) : EventLoop :=
  (EventLoop.init shutdownfd).replace ev.fd (Anfd.fresh.withFirst ev)
    (some (epollEvents ev.events))

theorem succeed_firstAdd (shutdownfd : Int) (ev : Event) (hne : ev.fd ≠ shutdownfd)
    (hfd : 0 ≤ ev.fd ∧ ev.fd < initEvents) :
    succeed (EventLoop.init shutdownfd) (.add ev true) = .ok (afterFirstAdd shutdownfd ev) := by
  have hrange : 0 ≤ ev.fd ∧ ev.fd < (EventLoop.init shutdownfd).maxEvents := by
    rwa [maxEvents_init]
  obtain ⟨linked, hadd⟩ := addInside_unused hrange (by rw [entry_init]; decide) true
  have hnone : (EventLoop.init shutdownfd).epoll ev.fd = none :=
    Function.update_of_ne hne _ (fun _ => none)
  have hctl : (EventLoop.init shutdownfd).eventCtl (.add ev true) =
      .ok (afterFirstAdd shutdownfd ev, true) := by
    rw [eventCtl, addEvent_inside hrange.2, hadd, Epoll.add, hnone, entry_init]
    rfl
  rw [succeed, hctl]

set_option maxRecDepth 20000 in
/-- Two descriptors are added, and all that was registered for one is taken away. -/
theorem table_agrees_with_epoll_del :
    ∃ s, run succeed (EventLoop.init 3) [.add (plainEvent 5 (eventRead ||| eventWrite)) true,
      .add (plainEvent 6 eventRead) true, .del (plainEvent 5 (eventRead ||| eventWrite))] = .ok s ∧
        s.Agrees := by
  refine ⟨_, rfl, table_agrees_with_epoll 3 [.add (plainEvent 5 (eventRead ||| eventWrite)) true,
    .add (plainEvent 6 eventRead) true, .del (plainEvent 5 (eventRead ||| eventWrite))] _ ?_ ?_ rfl⟩
  · have hboth : Mask.Valid (eventRead ||| eventWrite) := ⟨by decide, by decide⟩
    have hread : Mask.Valid eventRead := ⟨by decide, by decide⟩
    simp only [List.forall_mem_cons]
    exact ⟨hboth, hread, hboth, by simp⟩
  · exact .cons_ok trivial rfl (.cons_ok trivial rfl (.cons_ok (.inr (.inr rfl)) rfl trivial))

/-- Reading is taken from a descriptor registered for reading and writing: both operations
return true, the table still holds the event, the kernel has forgotten the descriptor. -/
theorem table_disagrees_after_split :
    ∃ s, run succeed (EventLoop.init 3) [.add (plainEvent 5 (eventRead ||| eventWrite)) true,
      .del (plainEvent 5 eventRead)] = .ok s ∧ ¬ s.Agrees := by
  have hadd := succeed_firstAdd 3
    (plainEvent 5 (eventRead ||| eventWrite)) (by decide) (by decide)
  have hrange : (0 : Int) ≤ 5 ∧ 5 < (EventLoop.init 3).maxEvents := by
    rw [maxEvents_init]
    decide
  have hsynced := eventCtl_synced (tableSynced_init 3)
    (show EventOp.Valid (.add (plainEvent 5 (eventRead ||| eventWrite)) true) from
      ⟨by decide, by decide⟩) trivial
    (succeed_eq_ok hadd)
  obtain ⟨t, hdel, hnot⟩ := deleteEvent_split hsynced (plainEvent 5 eventRead) (by
    have hentry : (afterFirstAdd 3 (plainEvent 5 (eventRead ||| eventWrite))).entry 5 =
        Anfd.fresh.withFirst (plainEvent 5 (eventRead ||| eventWrite)) :=
      entry_replace hrange _ _
    simp only [DelWhole, plainEvent] at hentry ⊢
    rw [hentry]
    decide)
  refine ⟨t, (run_cons_ok hadd).trans (run_cons_ok ?_), hnot⟩
  rw [succeed, eventCtl, hdel]

end Sails.Base
