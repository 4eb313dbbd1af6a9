import Sails.Base.EventTable.Effects

/-!
# What a refused ADD leaves behind

`add_event` links the event into the table first and asks the kernel afterwards; there is no way
back from the second to the first.

- `SameTable`: every entry is as before, in a table that may have grown
- `RefusedByKernel`: the event is linked when `epoll_ctl` refuses
- `refusedAdd_keeps_iff`: an ADD that returns false changes nothing exactly when the kernel was not
  the one to refuse it
-/

namespace Sails.Base

open EventLoop

/-! ## Refused calls -/

/-- The used flags, lists and cached masks are those of before; the table may have grown. -/
structure SameTable (s t : EventLoop) : Prop where
  maxEvents : s.maxEvents ≤ t.maxEvents
  isused : ∀ fd, (t.entry fd).isused = (s.entry fd).isused
  next : ∀ fd, (t.entry fd).next = (s.entry fd).next
  events : ∀ fd, (t.entry fd).events = (s.entry fd).events

/-- If the ADD returns false, it has changed nothing. -/
def RefusedAddKeeps (ctl : EpollAdd) (s : EventLoop) (ev : Event) (reallocOk : Bool) : Prop :=
  ∀ t, s.addEventWith ctl ev true reallocOk = .ok (t, false) → SameTable s t

/-- The ADD gets as far as `epoll_ctl` with its event linked, and the kernel refuses it. -/
structure RefusedByKernel (ctl : EpollAdd) (s : EventLoop) (ev : Event) (reallocOk : Bool) :
    Prop where
  fd : 0 ≤ ev.fd
  room : s.HasRoom ev.fd reallocOk
  links : (s.entry ev.fd).Links ev.events
  refused : ctl s.epoll ev.fd (epollEvents ev.events) = none

variable {ctl : EpollAdd} {s : EventLoop} {ev : Event} {reallocOk : Bool}

theorem SameTable.refl (s : EventLoop) : SameTable s s :=
  ⟨Int.le_refl _, fun _ => rfl, fun _ => rfl, fun _ => rfl⟩

/-- Linking is seen: the entry becomes used, or its list longer. -/
theorem Anfd.Links.changes {a : Anfd} (h : a.Links ev.events) :
    (a.linked ev).isused ≠ a.isused ∨ (a.linked ev).next ≠ a.next := by
  by_cases hused : a.isused = 1
  · obtain ⟨hmore, hne⟩ := h.resolve_left (not_not.mpr hused)
    refine .inr fun heq => ?_
    rw [Anfd.linked_used hused hmore] at heq
    -- a longer list is another list
    have hlength := congrArg (fun chain => chain.toList.length) heq
    simp only [EventChain.toList, List.length_append, List.length_singleton] at hlength
    omega
  · refine .inl ?_
    rw [Anfd.linked_isused]
    exact fun heq => hused heq.symm

theorem addInsideWith_refused (hfd : 0 ≤ ev.fd ∧ ev.fd < s.maxEvents)
    (hlinks : (s.entry ev.fd).Links ev.events)
    (hrefused : ctl s.epoll ev.fd (epollEvents ev.events) = none) :
    ∃ t, s.addInsideWith ctl ev true = .ok (t, false) ∧
      t.entry ev.fd = (s.entry ev.fd).linked ev := by
  obtain ⟨t, hlink⟩ := linkEvent_ok hfd hlinks
  obtain ⟨-, hepoll, hchanges, -⟩ := linkEvent_cases hlink
  refine ⟨t, ?_, hchanges.self⟩
  simp only [addInsideWith, bind, Except.bind, hlink, hepoll, hrefused, and_self, if_true]

/-- What the kernel refuses is in the table already. -/
theorem RefusedByKernel.linked (h : RefusedByKernel ctl s ev reallocOk) :
    ∃ t, s.addEventWith ctl ev true reallocOk = .ok (t, false) ∧
      t.entry ev.fd = (s.entry ev.fd).linked ev := by
  -- the table may grow first; its entries and the kernel stay as they are
  obtain ⟨grown, hroom⟩ := h.room.makeRoom
  obtain ⟨hentry, hepoll, -, -, hlt, -⟩ := makeRoom_spec hroom
  have hlinks := h.links
  have hrefused := h.refused
  rw [← hentry] at hlinks
  rw [← hepoll] at hrefused
  obtain ⟨t, hadd, hself⟩ := addInsideWith_refused ⟨h.fd, hlt⟩ hlinks hrefused
  refine ⟨t, ?_, by rw [hself, hentry]⟩
  rw [addEventWith, hroom]
  exact hadd

/-- **A refused ADD changes nothing**, whatever the kernel does, exactly when it is not the kernel
that refuses the linked event. -/
theorem refusedAdd_keeps_iff (ctl : EpollAdd) (s : EventLoop) (ev : Event) (reallocOk : Bool) :
    RefusedAddKeeps ctl s ev reallocOk ↔ ¬ RefusedByKernel ctl s ev reallocOk := by
  constructor
  · intro hkeeps hrefused
    obtain ⟨t, hadd, hself⟩ := hrefused.linked
    have hsame := hkeeps t hadd
    have hnext := hsame.next ev.fd
    have hused := hsame.isused ev.fd
    rw [hself] at hnext hused
    -- the flag or the list is not what it was
    rcases hrefused.links.changes with hchanged | hchanged
    · exact hchanged hused
    · exact hchanged hnext
  · intro hnot t hadd
    -- `realloc` has refused, before anything is touched, or the event is in the table
    rcases addEventWith_cases hadd with ⟨rfl, -⟩ | ⟨hfd, hroom, ⟨htrue, -⟩ | ⟨-, -, hlinks, hnone⟩⟩
    · exact .refl t
    · exact absurd htrue (by decide)
    · exact absurd ⟨hfd, hroom, hlinks, hnone⟩ hnot

set_option maxRecDepth 20000 in
/-- Writing is added to a descriptor registered for reading: the kernel knows the descriptor
already, and the event stays in the list. When reading is gone, the ADD succeeds, and the list has
the event twice. -/
theorem refusedAdd_registers_twice : ∃ s t u v : EventLoop,
    (EventLoop.init 3).eventCtl (.add (plainEvent 5 eventRead) true) = .ok (s, true) ∧
      ¬ RefusedAddKeeps Epoll.add s (plainEvent 5 eventWrite) true ∧
      s.eventCtl (.add (plainEvent 5 eventWrite) true) = .ok (t, false) ∧
      (t.entry 5).events = eventRead ∧
      (t.entry 5).next = .events [plainEvent 5 eventRead, plainEvent 5 eventWrite] ∧
      t.eventCtl (.del (plainEvent 5 eventRead)) = .ok (u, true) ∧
      u.eventCtl (.add (plainEvent 5 eventWrite) true) = .ok (v, true) ∧
      (v.entry 5).next = .events [plainEvent 5 eventWrite, plainEvent 5 eventWrite] := by
  refine ⟨_, _, _, _, rfl, fun hkeeps => ?_, rfl, rfl, rfl, rfl, rfl, rfl⟩
  have hnext := (hkeeps _ rfl).next 5
  cases hnext

end Sails.Base
