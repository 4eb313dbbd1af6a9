import Sails.Base.EventTable.Effects
import Sails.Library.NodeList

/-!
# `process_event`

The dispatch of one descriptor, with callbacks that may call the event loop again: the mutex is
recursive, so each callback may perform any calls of `event_ctl` and `event_stop` before it
returns.

- `NodeLoop`: the event loop, and the nodes of the list of the descriptor that is dispatched
- `dispatchStart`: `process_event` up to its loop
- `dispatchStep`: one iteration; the calls its callback makes are a script
- `processEvent`: as many iterations as there are scripts

The loop keeps a pointer `io_w` into the list. To follow it when its node has been freed is a
fault, also when the memory has been allocated again since.
-/

namespace Sails.Base

open TransitionRun
open EventLoop

/-! ## Nodes -/

/-- The loop of `delete_event` for one event; `none` when it is freed. -/
def clearOne (mask : Mask) (e : Event) : Option Event :=
  if (e.events &&& mask).toInt > 0 then
    if e.events ^^^ mask = 0 then none else some { e with events := e.events ^^^ mask }
  else some e

theorem clearMask_eq_filterMap (mask : Mask) (es : List Event) :
    clearMask mask es = es.filterMap (clearOne mask) := by
  induction es with
  | nil => rfl
  | cons e es ih =>
    rw [clearMask, List.filterMap_cons, clearOne, ih]
    split
    · split <;> rfl
    · rfl

/-- The loop of `delete_event`, over nodes. -/
def clearCells (mask : Mask) (cells : List (Nat × Event)) : List (Nat × Event) :=
  cells.filterMap fun c => (clearOne mask c.2).map fun e => (c.1, e)

/-- The nodes that `delete_event` leaves, the first one apart from the others. -/
def deleteCells (events mask : Mask) : List (Nat × Event) → List (Nat × Event)
  | [] => []
  | first :: rest =>
    if events ^^^ mask = 0 then clearCells mask rest else first :: clearCells mask rest

theorem clearCells_sublist (mask : Mask) (cells : List (Nat × Event)) :
    ((clearCells mask cells).map Prod.fst).Sublist (cells.map Prod.fst) := by
  induction cells with
  | nil => exact List.Sublist.refl _
  | cons c cells ih =>
    rw [clearCells, List.filterMap_cons, ← clearCells]
    cases clearOne mask c.2 with
    | none => exact ih.cons _
    | some e => exact ih.cons_cons _

theorem deleteCells_sublist (events mask : Mask) (cells : List (Nat × Event)) :
    ((deleteCells events mask cells).map Prod.fst).Sublist (cells.map Prod.fst) := by
  cases cells with
  | nil => exact List.Sublist.refl _
  | cons first rest =>
    rw [deleteCells]
    split
    · exact (clearCells_sublist mask rest).cons _
    · exact (clearCells_sublist mask rest).cons_cons _

/-- What an operation makes of the nodes of the list of `fd`, a descriptor inside the table whose
entry is `a`. -/
def chainAfter (fd : Int) (a : Anfd) (op : EventOp) (l : NodeList Event) : NodeList Event :=
  match op with
  | .add ev _ =>
    if ev.fd = fd then
      if a.isused = 1 then
        -- an event without new bits is allocated, and linked nowhere
        if a.events ||| ev.events ≠ a.events then l.push ev else l
      else l.only ev
    else l
  | .del ev =>
    if ev.fd = fd ∧ a.isused = 1 ∧ a.events &&& ev.events ≠ 0 then
      l.restrict (deleteCells a.events ev.events l.cells) (deleteCells_sublist ..)
    else l
  | .mod ev _ => if ev.fd = fd ∧ a.isused = 1 then l.only ev else l
  | .stop fd' => if fd' = fd ∧ a.isused = 1 then l.clear else l

/-! ## Callbacks -/

/-- A call of `event_ctl` or `event_stop`, with what the kernel has registered when it is made. A
call asks the kernel once at most, so this covers all its answers. -/
structure CtlCall where
  op : EventOp
  epoll : Epoll

/-- The event loop, and the list of one descriptor by its nodes. -/
structure NodeLoop where
  loop : EventLoop
  chain : NodeList Event

/-- A call, while `fd` is dispatched. -/
def nodeStep (fd : Int) (s : NodeLoop) (c : CtlCall) : Except Fault NodeLoop :=
  match EventLoop.eventCtl { s.loop with epoll := c.epoll } c.op with
  | .error f => .error f
  | .ok (t, _) => .ok { loop := t, chain := chainAfter fd (s.loop.entry fd) c.op s.chain }

/-! ## The loop -/

/-- A callback that was called: its event, and the events registered for the descriptor then. -/
structure CallbackCall where
  event : Event
  registered : List Event

/-- `process_event` between two iterations; `cursor` is `io_w`, and `NULL` when the loop is
left. -/
structure Dispatch where
  state : NodeLoop
  cursor : Option Nat
  calls : List CallbackCall

/-- Who is to blame for a fault. -/
inductive DispatchFault where
  | processEvent (f : Fault)
  | callback (f : Fault)

/-- `process_event` up to its loop. -/
def dispatchStart (s : EventLoop) (fd : Int) (events : Mask) : Except DispatchFault Dispatch :=
  let chain := NodeList.ofList (s.entry fd).next.toList
  let left : Dispatch := { state := { loop := s, chain := chain }, cursor := none, calls := [] }
  if fd < 0 ∨ fd > s.maxEvents then .ok left
  else
    -- `fd == max_events` gets here
    match s.load fd with
    | .error f => .error (.processEvent f)
    | .ok a =>
      if a.isused ≠ 1 then .ok left
      else if a.events &&& events ≠ 0 then .ok { left with cursor := chain.first }
      else .ok left

/-- The callback of an event, which makes the calls of the script. -/
def Dispatch.call (fd : Int) (d : Dispatch) (e : Event) (script : List CtlCall) :
    Except DispatchFault Dispatch :=
  match run (nodeStep fd) d.state script with
  | .error f => .error (.callback f)
  | .ok t =>
    .ok { d with
      state := t
      calls := d.calls ++ [{ event := e, registered := (d.state.loop.entry fd).held }] }

/-- The end of an iteration: the callback may have stopped the descriptor. -/
def Dispatch.advance (fd : Int) (d : Dispatch) (io_w : Nat) : Except DispatchFault Dispatch :=
  match d.state.loop.load fd with
  | .error f => .error (.processEvent f)
  | .ok a =>
    -- a descriptor that is used again, or still, does not say that the node is there
    if a.isused ≠ 0 then
      match d.state.chain.next io_w with
      | none => .error (.processEvent .dangling)
      | some next => .ok { d with cursor := next }
    else .ok { d with cursor := none }

/-- One iteration. -/
def dispatchStep (fd : Int) (events : Mask) (d : Dispatch) (script : List CtlCall) :
    Except DispatchFault Dispatch :=
  match d.cursor with
  | none => .ok d
  | some io_w =>
    match d.state.chain.read io_w with
    | none => .error (.processEvent .dangling)
    | some e =>
      -- an event without a callback ends the loop, whatever stands behind it
      if e.cb = none then .ok { d with cursor := none }
      else if e.events &&& events ≠ 0 ∧ e.fd = fd then
        match d.call fd e script with
        | .error f => .error f
        | .ok d => d.advance fd io_w
      else d.advance fd io_w

/-- `process_event`, for as many iterations as there are scripts. -/
def processEvent (s : EventLoop) (fd : Int) (events : Mask) (scripts : List (List CtlCall)) :
    Except DispatchFault Dispatch :=
  match dispatchStart s fd events with
  | .error f => .error f
  | .ok d => run (dispatchStep fd events) d scripts

/-! ## The nodes are those of the table -/

/-- The list of an entry, by its nodes. -/
structure Tracked (a : Anfd) (l : NodeList Event) : Prop where
  isused : a.isused = 0 ∨ a.isused = 1
  values : l.values = a.held

theorem Anfd.held_used {a : Anfd} (h : a.isused = 1) : a.held = a.next.toList := by
  rw [Anfd.held, if_pos h]
  cases a.next <;> rfl

theorem Anfd.held_unused {a : Anfd} (h : a.isused ≠ 1) : a.held = [] := by
  rw [Anfd.held, if_neg h]

theorem Anfd.refreshed_linked_held (a : Anfd) (ev : Event) :
    (a.linked ev).refreshed.held = (a.linked ev).held := by
  have hrefreshed : (a.linked ev).refreshed.isused = 1 := Anfd.linked_isused a ev
  rw [Anfd.held_used hrefreshed, Anfd.held_used (Anfd.linked_isused a ev)]
  rfl

theorem values_deleteCells (events mask : Mask) (n : Nat) (first : Event)
    (rest : List (Nat × Event)) :
    (deleteCells events mask ((n, first) :: rest)).map Prod.snd =
      if events ^^^ mask = 0 then clearMask mask (rest.map Prod.snd)
      else first :: clearMask mask (rest.map Prod.snd) := by
  have hclear : (clearCells mask rest).map Prod.snd = clearMask mask (rest.map Prod.snd) := by
    rw [clearMask_eq_filterMap, clearCells, List.map_filterMap, List.filterMap_map]
    refine List.filterMap_congr fun c _ => ?_
    rw [Option.map_map]
    exact Option.map_id'
  rw [deleteCells]
  split
  · exact hclear
  · rw [List.map_cons, hclear]

variable {s t : EventLoop} {fd : Int} {op : EventOp} {ok : Bool} {l : NodeList Event} {ev : Event}

/-- A call for another descriptor. -/
theorem chainAfter_other (a : Anfd) (l : NodeList Event) (hother : opFd op ≠ fd) :
    chainAfter fd a op l = l := by
  cases op with
  | add ev reallocOk => exact if_neg hother
  | del ev => exact if_neg fun hand => hother hand.1
  | mod ev reallocOk => exact if_neg fun hand => hother hand.1
  | stop fd' => exact if_neg fun hand => hother hand.1

/-- The node that `add_event` links holds the event it links. -/
theorem Tracked.linked {b : Anfd} {reallocOk : Bool} (h : Tracked (s.entry ev.fd) l)
    (hb : b.isused = 1) (hheld : b.held = ((s.entry ev.fd).linked ev).held) :
    Tracked b (chainAfter ev.fd (s.entry ev.fd) (.add ev reallocOk) l) := by
  refine ⟨.inr hb, ?_⟩
  rw [hheld, Anfd.held_used (Anfd.linked_isused ..), chainAfter, if_pos rfl]
  by_cases hused : (s.entry ev.fd).isused = 1
  · rw [if_pos hused]
    have hvalues : l.values = (s.entry ev.fd).held := h.values
    rw [Anfd.held_used hused] at hvalues
    by_cases hmore : (s.entry ev.fd).events ||| ev.events = (s.entry ev.fd).events
    · rw [if_neg (not_not.mpr hmore), Anfd.linked_same hused hmore]
      exact hvalues
    · rw [if_pos hmore, Anfd.linked_used hused hmore, NodeList.values_push, hvalues]
      rfl
  · rw [if_neg hused, Anfd.linked_unused hused]
    rfl

theorem Tracked.addEvent {reallocOk : Bool} (h : Tracked (s.entry ev.fd) l)
    (hinside : ev.fd < s.maxEvents)
    (hadd : s.addEventWith Epoll.add ev true reallocOk = .ok (t, ok)) :
    Tracked (t.entry ev.fd) (chainAfter ev.fd (s.entry ev.fd) (.add ev reallocOk) l) := by
  rcases addEventWith_cases hadd with ⟨-, -, hout⟩ | ⟨-, -, ⟨-, hplaced⟩ | ⟨-, hplaced, -⟩⟩
  · exact absurd hinside (Int.not_lt.mpr hout)
  · rw [hplaced.self]
    exact h.linked (Anfd.linked_isused ..) (Anfd.refreshed_linked_held ..)
  -- the kernel has refused, and the event stays linked
  · rw [hplaced.self]
    exact h.linked (Anfd.linked_isused ..) rfl

theorem Tracked.deleteEvent (h : Tracked (s.entry ev.fd) l)
    (hdel : s.deleteEvent ev = .ok (t, ok)) :
    Tracked (t.entry ev.fd) (chainAfter ev.fd (s.entry ev.fd) (.del ev) l) := by
  rcases deleteEvent_cases hdel with ⟨rfl, hmiss⟩ | ⟨first, rest, hused, hhit, hnext, hchanges⟩
  · rw [chainAfter, if_neg fun hand => hand.2.2 (hmiss hand.2.1)]
    exact h
  · rw [chainAfter, if_pos ⟨rfl, hused, hhit⟩, hchanges.self]
    refine ⟨.inr hused, ?_⟩
    have hvalues : l.values = first :: rest := by
      have hvalues : l.values = (s.entry ev.fd).held := h.values
      rwa [Anfd.held_used hused, hnext] at hvalues
    obtain ⟨⟨n, first'⟩, cells, hcells, hfirst, hrest⟩ := List.map_eq_cons_iff.mp hvalues
    dsimp only at hfirst
    subst hfirst hrest
    have hafter :
        Anfd.isused ((s.entry ev.fd).cleared ev.events first' (cells.map Prod.snd)) = 1 := hused
    rw [Anfd.held_used hafter]
    change (deleteCells _ _ l.cells).map Prod.snd = _
    rw [hcells, values_deleteCells]
    rfl

theorem Tracked.modEvent {reallocOk : Bool} (h : Tracked (s.entry ev.fd) l)
    (hmod : s.modEvent ev reallocOk = .ok (t, ok)) :
    Tracked (t.entry ev.fd) (chainAfter ev.fd (s.entry ev.fd) (.mod ev reallocOk) l) := by
  rcases modEvent_cases hmod with ⟨rfl, hunused⟩ | ⟨hused, hchanges⟩
  · rw [chainAfter, if_neg fun hand => hunused hand.2]
    exact h
  · rw [chainAfter, if_pos ⟨rfl, hused⟩, hchanges.self]
    exact ⟨.inr rfl, rfl⟩

theorem Tracked.eventStop (h : Tracked (s.entry fd) l) (hstop : s.eventStop fd = .ok (t, ok)) :
    Tracked (t.entry fd) (chainAfter fd (s.entry fd) (.stop fd) l) := by
  rcases eventStop_cases hstop with ⟨rfl, hunused⟩ | ⟨hused, hchanges⟩
  · rw [chainAfter, if_neg fun hand => hunused hand.2]
    exact h
  · rw [chainAfter, if_pos ⟨rfl, hused⟩, hchanges.self]
    exact ⟨.inl rfl, rfl⟩

/-- **Refinement**: the nodes go on holding the list of the table. -/
theorem Tracked.after (h : Tracked (s.entry fd) l) (hfd : 0 ≤ fd ∧ fd < s.maxEvents)
    (hctl : s.eventCtl op = .ok (t, ok)) :
    Tracked (t.entry fd) (chainAfter fd (s.entry fd) op l) := by
  by_cases hself : opFd op = fd
  · subst hself
    cases op with
    | add ev reallocOk => exact h.addEvent hfd.2 hctl
    | del ev => exact h.deleteEvent hctl
    | mod ev reallocOk => exact h.modEvent hctl
    | stop fd' => exact h.eventStop hctl
  · rw [(eventCtl_frame hctl).2 fd (Ne.symm hself), chainAfter_other _ l hself]
    exact h

end Sails.Base
