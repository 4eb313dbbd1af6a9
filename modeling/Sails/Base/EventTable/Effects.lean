import Sails.Base.EventTable.WellFormed

/-!
# What each operation does to the table

One inversion lemma for each operation of the event loop: from a call that returns, what it has
made of the entry of its descriptor. No other entry is touched.

- `addEventWith`: `add_event` with any behaviour of `epoll_ctl`
- `addEventWith_cases`, `deleteEvent_cases`, `modEvent_cases`, `eventStop_cases`: the inversions
- `eventCtl_frame`: the entries of other descriptors, and the length of the table
-/

namespace Sails.Base

open TransitionRun (Fault ok_of_bind)

/-- The events of a list; memory that has been freed holds none. -/
def EventChain.toList : EventChain → List Event
  | .events es => es
  | .freed => []

theorem EventChain.eq_events_of_toList {chain : EventChain} {e : Event} {es : List Event}
    (h : chain.toList = e :: es) : chain = .events (e :: es) := by
  cases chain with
  | events es' => exact congrArg EventChain.events h
  | freed => cases h

namespace EventLoop

/-! ## ADD with any answer of the kernel -/

/-- What `epoll_ctl(EPOLL_CTL_ADD)` answers; `none` is -1. -/
abbrev EpollAdd := Epoll → Int → Mask → Option Epoll

/-- `add_event` for a descriptor inside the table. -/
def addInsideWith (ctl : EpollAdd) (s : EventLoop) (ev : Event) (ctlPoll : Bool) :
    Except Fault (EventLoop × Bool) := do
  let (s, needAddToEpoll) ← s.linkEvent ev
  if needAddToEpoll ∧ ctlPoll then
    match ctl s.epoll ev.fd (epollEvents ev.events) with
    -- the event stays linked, and the cached mask is not recomputed
    | none => .ok (s, false)
    | some epoll => do
      let s ← { s with epoll := epoll }.refreshEvents ev.fd
      .ok (s, true)
  else do
    let s ← s.refreshEvents ev.fd
    .ok (s, true)

/-- `add_event`. -/
def addEventWith (ctl : EpollAdd) (s : EventLoop) (ev : Event) (ctlPoll reallocOk : Bool) :
    Except Fault (EventLoop × Bool) := do
  match ← s.makeRoom ev.fd reallocOk with
  | none => .ok (s, false)
  | some s => s.addInsideWith ctl ev ctlPoll

/-- The kernel of the event loop is one such behaviour. -/
theorem addEventWith_add : addEventWith Epoll.add = addEvent := rfl

end EventLoop

open EventLoop

/-! ## Entries -/

/-- An ADD links its event: the entry is unused, or the event brings new bits to a list that is
there. -/
def Anfd.Links (a : Anfd) (mask : Mask) : Prop :=
  a.isused ≠ 1 ∨ (a.events ||| mask ≠ a.events ∧ a.next.toList ≠ [])

/-- The entry with the event linked. -/
def Anfd.linked (a : Anfd) (ev : Event) : Anfd :=
  if a.isused = 1 then
    if a.events ||| ev.events ≠ a.events then { a with next := .events (a.next.toList ++ [ev]) }
    else a
  else { a with isused := 1, next := .events [ev] }

/-- The entry with its cached mask recomputed. -/
def Anfd.refreshed (a : Anfd) : Anfd := { a with events := unionMask a.next.toList }

/-- The entry that `event_stop` leaves. -/
def Anfd.stopped (a : Anfd) : Anfd := { a with isused := 0, next := .freed }

theorem Anfd.linked_used {a : Anfd} {ev : Event} (h : a.isused = 1)
    (hmore : a.events ||| ev.events ≠ a.events) :
    a.linked ev = { a with next := .events (a.next.toList ++ [ev]) } := by
  rw [Anfd.linked, if_pos h, if_pos hmore]

theorem Anfd.linked_same {a : Anfd} {ev : Event} (h : a.isused = 1)
    (hmore : a.events ||| ev.events = a.events) : a.linked ev = a := by
  rw [Anfd.linked, if_pos h, if_neg (not_not.mpr hmore)]

theorem Anfd.linked_unused {a : Anfd} {ev : Event} (h : a.isused ≠ 1) :
    a.linked ev = { a with isused := 1, next := .events [ev] } := by
  rw [Anfd.linked, if_neg h]

@[simp] theorem Anfd.linked_isused (a : Anfd) (ev : Event) : (a.linked ev).isused = 1 := by
  unfold Anfd.linked
  split
  · split <;> assumption
  · rfl

/-- `t` is `s`, whose table may have grown, with another entry for one descriptor. -/
structure Places (s t : EventLoop) (fd : Int) (a : Anfd) : Prop where
  maxEvents : s.maxEvents ≤ t.maxEvents
  entry : ∀ fd', t.entry fd' = if fd' = fd then a else s.entry fd'

theorem Places.self {s t : EventLoop} {fd : Int} {a : Anfd} (h : Places s t fd a) :
    t.entry fd = a := (h.entry fd).trans (if_pos rfl)

theorem Places.other {s t : EventLoop} {fd fd' : Int} {a : Anfd} (h : Places s t fd a)
    (hne : fd' ≠ fd) : t.entry fd' = s.entry fd' := (h.entry fd').trans (if_neg hne)

theorem Changes.places {s t : EventLoop} {fd : Int} {a : Anfd} (h : Changes s t fd a) :
    Places s t fd a := ⟨Int.le_of_eq h.maxEvents.symm, h.entry⟩

theorem Changes.trans {s t u : EventLoop} {fd : Int} {a b : Anfd} (h : Changes s t fd a)
    (h' : Changes t u fd b) : Changes s u fd b := by
  refine ⟨h'.maxEvents.trans h.maxEvents, fun fd' => ?_⟩
  rw [h'.entry, h.entry]
  split <;> rfl

/-! ## ADD -/

variable {ctl : EpollAdd} {s t : EventLoop} {ev : Event} {fd : Int} {ctlPoll reallocOk ok : Bool}

theorem linkEvent_cases (h : s.linkEvent ev = .ok (t, ok)) :
    (0 ≤ ev.fd ∧ ev.fd < s.maxEvents) ∧ t.epoll = s.epoll ∧
      Changes s t ev.fd ((s.entry ev.fd).linked ev) ∧
      (ok = true → (s.entry ev.fd).Links ev.events) := by
  by_cases hfd : 0 ≤ ev.fd ∧ ev.fd < s.maxEvents
  swap
  · rw [linkEvent_of_outside hfd] at h
    cases h
  have hload : s.load ev.fd = .ok (s.entry ev.fd) := if_pos hfd
  refine ⟨hfd, ?_⟩
  simp only [linkEvent, hload, bind, Except.bind] at h
  by_cases hused : (s.entry ev.fd).isused = 1
  · rw [if_pos hused] at h
    by_cases hmore : (s.entry ev.fd).events ||| ev.events = (s.entry ev.fd).events
    · rw [if_neg (not_not.mpr hmore)] at h
      cases h
      rw [Anfd.linked_same hused hmore]
      exact ⟨rfl, changes_same rfl _, fun h => (by cases h)⟩
    · rw [if_pos hmore] at h
      cases hnext : (s.entry ev.fd).next with
      | freed =>
        rw [hnext] at h
        cases h
      | events es =>
        rw [hnext] at h
        cases es with
        | nil => cases h
        | cons e es =>
          cases h
          have hlist : (s.entry ev.fd).next.toList = e :: es := by rw [hnext]; rfl
          refine ⟨rfl, ?_, fun _ => .inr ⟨hmore, by rw [hlist]; exact List.cons_ne_nil e es⟩⟩
          rw [Anfd.linked_used hused hmore, hlist]
          exact changes_store hfd rfl
  · rw [if_neg hused] at h
    cases h
    rw [Anfd.linked_unused hused]
    exact ⟨rfl, changes_store hfd rfl, fun _ => .inl hused⟩

/-- When it links, it succeeds. -/
theorem linkEvent_ok (hfd : 0 ≤ ev.fd ∧ ev.fd < s.maxEvents)
    (hlinks : (s.entry ev.fd).Links ev.events) : ∃ t, s.linkEvent ev = .ok (t, true) := by
  have hload : s.load ev.fd = .ok (s.entry ev.fd) := if_pos hfd
  by_cases hused : (s.entry ev.fd).isused = 1
  · obtain ⟨hmore, hne⟩ := hlinks.resolve_left (not_not.mpr hused)
    obtain ⟨e, es, hlist⟩ := List.exists_cons_of_ne_nil hne
    refine ⟨s.store ev.fd { s.entry ev.fd with next := .events (e :: es ++ [ev]) }, ?_⟩
    simp only [linkEvent, hload, bind, Except.bind, hused, if_true, if_pos hmore,
      EventChain.eq_events_of_toList hlist, EventChain.read]
  · refine ⟨s.store ev.fd { s.entry ev.fd with isused := 1, next := .events [ev] }, ?_⟩
    simp only [linkEvent, hload, bind, Except.bind, if_neg hused]

theorem refreshEvents_cases (h : s.refreshEvents fd = .ok t) :
    Changes s t fd (s.entry fd).refreshed := by
  obtain ⟨hfd, h⟩ := ok_of_load h
  cases hnext : (s.entry fd).next with
  | freed => rw [hnext] at h; cases h
  | events es =>
    rw [hnext] at h
    cases h
    refine changes_store hfd ?_
    rw [Anfd.refreshed, hnext]
    rfl

theorem addInsideWith_cases (h : s.addInsideWith ctl ev ctlPoll = .ok (t, ok)) :
    (0 ≤ ev.fd ∧ ev.fd < s.maxEvents) ∧
      (ok = true ∧ Changes s t ev.fd ((s.entry ev.fd).linked ev).refreshed ∨
        ok = false ∧ Changes s t ev.fd ((s.entry ev.fd).linked ev) ∧
          (s.entry ev.fd).Links ev.events ∧
          ctl s.epoll ev.fd (epollEvents ev.events) = none) := by
  obtain ⟨⟨u, need⟩, hlink, h⟩ := ok_of_bind h
  obtain ⟨hfd, hepoll, hchanges, hlinks⟩ := linkEvent_cases hlink
  refine ⟨hfd, ?_⟩
  -- whatever the kernel is asked, the mask is recomputed in the table that has the event
  have hrefresh : ∀ v w : EventLoop, v.refreshEvents ev.fd = .ok w → v.anfds = u.anfds →
      Changes s w ev.fd ((s.entry ev.fd).linked ev).refreshed := by
    intro v w hw hv
    have hsame : Changes s v ev.fd ((s.entry ev.fd).linked ev) := by
      have huv := changes_same hv ev.fd
      rw [hchanges.self] at huv
      exact hchanges.trans huv
    have hlast := refreshEvents_cases hw
    rw [hsame.self] at hlast
    exact hsame.trans hlast
  simp only at h
  split at h
  · rename_i hasked
    rw [hepoll] at h
    split at h
    · rename_i hrefused
      cases h
      exact .inr ⟨rfl, hchanges, hlinks hasked.1, hrefused⟩
    · obtain ⟨w, hw, h⟩ := ok_of_bind h
      cases h
      exact .inl ⟨rfl, hrefresh _ _ hw rfl⟩
  · obtain ⟨w, hw, h⟩ := ok_of_bind h
    cases h
    exact .inl ⟨rfl, hrefresh _ _ hw rfl⟩

/-- **ADD**: `realloc` or the kernel refuses, or the event is in the table. -/
theorem addEventWith_cases (h : s.addEventWith ctl ev ctlPoll reallocOk = .ok (t, ok)) :
    t = s ∧ ok = false ∧ s.maxEvents ≤ ev.fd ∨
      0 ≤ ev.fd ∧ s.HasRoom ev.fd reallocOk ∧
        (ok = true ∧ Places s t ev.fd ((s.entry ev.fd).linked ev).refreshed ∨
          ok = false ∧ Places s t ev.fd ((s.entry ev.fd).linked ev) ∧
            (s.entry ev.fd).Links ev.events ∧
            ctl s.epoll ev.fd (epollEvents ev.events) = none) := by
  obtain ⟨r, hroom, h⟩ := ok_of_bind h
  cases r with
  | none =>
    cases h
    exact .inl ⟨rfl, rfl, makeRoom_none hroom⟩
  | some grown =>
    obtain ⟨hentry, hepoll, -, hmax, -, hhas⟩ := makeRoom_spec hroom
    obtain ⟨⟨hfd, -⟩, hcases⟩ := addInsideWith_cases h
    rw [hentry, hepoll] at hcases
    -- growing changes no entry, so what changed is that of the descriptor
    have hplaces : ∀ {a : Anfd}, Changes grown t ev.fd a → Places s t ev.fd a := by
      intro a hchanges
      refine ⟨by rw [hchanges.maxEvents]; exact hmax, fun fd' => ?_⟩
      rw [hchanges.entry, hentry]
    exact .inr ⟨hfd, hhas, hcases.imp (fun ⟨hok, hc⟩ => ⟨hok, hplaces hc⟩)
      fun ⟨hok, hc, hrest⟩ => ⟨hok, hplaces hc, hrest⟩⟩

/-! ## DEL, MOD and `event_stop` -/

/-- **DEL**: it misses the entry, or clears the mask there. -/
theorem deleteEvent_cases (h : s.deleteEvent ev = .ok (t, ok)) :
    t = s ∧ ((s.entry ev.fd).isused = 1 → (s.entry ev.fd).events &&& ev.events = 0) ∨
      ∃ first rest, (s.entry ev.fd).isused = 1 ∧ (s.entry ev.fd).events &&& ev.events ≠ 0 ∧
        (s.entry ev.fd).next = .events (first :: rest) ∧
        Changes s t ev.fd ((s.entry ev.fd).cleared ev.events first rest) := by
  unfold deleteEvent at h
  split at h
  · rename_i hrange
    cases h
    refine .inl ⟨rfl, fun hused => ?_⟩
    -- an entry that is used is inside the table
    have hfd := range_of_used hused
    omega
  · obtain ⟨hfd, h⟩ := ok_of_load h
    by_cases hused : (s.entry ev.fd).isused = 1
    · rw [if_pos hused] at h
      -- a mask that misses the cached one changes nothing
      by_cases hmiss : (s.entry ev.fd).events &&& ev.events = 0
      · rw [if_pos hmiss] at h
        cases h
        exact .inl ⟨rfl, fun _ => hmiss⟩
      · rw [if_neg hmiss] at h
        cases hnext : (s.entry ev.fd).next with
        | freed => rw [hnext] at h; cases h
        | events es =>
          rw [hnext] at h
          cases es with
          | nil => cases h
          | cons first rest =>
            cases h
            exact .inr ⟨first, rest, hused, hmiss, rfl, changes_store hfd rfl⟩
    · rw [if_neg hused] at h
      cases h
      exact .inl ⟨rfl, fun hused' => absurd hused' hused⟩

theorem modEvOnly_anfds (h : s.modEvOnly ev = .ok (t, ok)) : t.anfds = s.anfds := by
  unfold modEvOnly at h
  split at h
  · cases h
    rfl
  · obtain ⟨-, h⟩ := ok_of_load h
    split at h
    · split at h
      · cases h
        rfl
      · cases h
        rfl
    · cases h
      rfl

/-- **MOD**: the entry is not used, or holds the one event. -/
theorem modEvent_cases (h : s.modEvent ev reallocOk = .ok (t, ok)) :
    t = s ∧ (s.entry ev.fd).isused ≠ 1 ∨
      (s.entry ev.fd).isused = 1 ∧ Changes s t ev.fd ((s.entry ev.fd).withFirst ev) := by
  unfold modEvent at h
  split at h
  · rename_i hrange
    cases h
    refine .inl ⟨rfl, fun hused => ?_⟩
    have hfd := range_of_used hused
    omega
  · obtain ⟨hfd, h⟩ := ok_of_load h
    by_cases hused : (s.entry ev.fd).isused = 1
    · rw [if_pos hused] at h
      -- the list is freed first, and then the event is added to an empty entry
      obtain ⟨es, -, h⟩ := ok_of_bind h
      simp only [emptied_addEvent hfd reallocOk, bind, Except.bind, if_true] at h
      exact .inr ⟨hused, changes_store hfd (modEvOnly_anfds h)⟩
    · rw [if_neg hused] at h
      cases h
      exact .inl ⟨rfl, hused⟩

/-- **`event_stop`**: the entry is not used, or its list is freed. -/
theorem eventStop_cases (h : s.eventStop fd = .ok (t, ok)) :
    t = s ∧ (s.entry fd).isused ≠ 1 ∨
      (s.entry fd).isused = 1 ∧ Changes s t fd (s.entry fd).stopped := by
  obtain ⟨hfd, h⟩ := ok_of_load h
  by_cases hused : (s.entry fd).isused = 1
  · rw [if_pos hused] at h
    obtain ⟨es, -, h⟩ := ok_of_bind h
    cases h
    exact .inr ⟨hused, changes_store hfd rfl⟩
  · rw [if_neg hused] at h
    cases h
    exact .inl ⟨rfl, hused⟩

/-! ## Other descriptors -/

/-- **Frame**: a call touches the entry of its own descriptor only, and the table does not
shrink. -/
theorem eventCtl_frame {op : EventOp} (h : s.eventCtl op = .ok (t, ok)) :
    s.maxEvents ≤ t.maxEvents ∧ ∀ fd, fd ≠ opFd op → t.entry fd = s.entry fd := by
  have hsame : t = s →
      s.maxEvents ≤ t.maxEvents ∧ ∀ fd, fd ≠ opFd op → t.entry fd = s.entry fd := by
    rintro rfl
    exact ⟨Int.le_refl _, fun _ _ => rfl⟩
  have hplaces : ∀ {a : Anfd}, Places s t (opFd op) a →
      s.maxEvents ≤ t.maxEvents ∧ ∀ fd, fd ≠ opFd op → t.entry fd = s.entry fd :=
    fun h => ⟨h.maxEvents, fun _ hne => h.other hne⟩
  cases op with
  | add ev reallocOk =>
    have hadd : s.addEventWith Epoll.add ev true reallocOk = .ok (t, ok) := h
    rcases addEventWith_cases hadd with
      ⟨heq, -⟩ | ⟨-, -, ⟨-, hplaced⟩ | ⟨-, hplaced, -⟩⟩
    · exact hsame heq
    · exact hplaces hplaced
    · exact hplaces hplaced
  | del ev =>
    rcases deleteEvent_cases h with ⟨heq, -⟩ | ⟨first, rest, -, -, -, hchanges⟩
    · exact hsame heq
    · exact hplaces hchanges.places
  | mod ev reallocOk =>
    rcases modEvent_cases h with ⟨heq, -⟩ | ⟨-, hchanges⟩
    · exact hsame heq
    · exact hplaces hchanges.places
  | stop fd =>
    rcases eventStop_cases h with ⟨heq, -⟩ | ⟨-, hchanges⟩
    · exact hsame heq
    · exact hplaces hchanges.places

end Sails.Base
