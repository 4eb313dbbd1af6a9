import Sails.Library.Run
import Mathlib.Logic.Function.Basic
import Mathlib.Data.List.Basic

/-!
# `base::EventLoop`: the event table and epoll

The table `anfds` of an event loop, the operations that change it together with the
registrations of epoll, and the kernel's side of `epoll_ctl`.

- `Anfd`, `EventLoop`: one entry per descriptor, and the kernel's interest masks
- `addEvent`, `deleteEvent`, `modEvOnly`, `modEvent`, `eventStop`: translated from
  `event_loop.cc` (the Linux branches)
- `eventCtl`, `EventOp`: the operations of the public interface

An access outside `anfds`, through a null `next` or through a list already freed is a
fault, and so is an `int` that overflows. `epoll_ctl` refuses an ADD for a registered descriptor, a MOD and a DEL for one
that is not.
-/

namespace Sails.Base

open TransitionRun (Fault)

/-! ## Events and masks -/

/-- The bits of an `int` of events. -/
abbrev Mask := BitVec 32

/-- `Event_READ`. -/
def eventRead : Mask := 1

/-- `Event_WRITE`. -/
def eventWrite : Mask := 2

/-- `EPOLLIN`, `EPOLLOUT` and `EPOLLET`. -/
def epollIn : Mask := 1
def epollOut : Mask := 4
def epollEt : Mask := 0x80000000

/-- The epoll mask that the operations make of an event mask. -/
def epollEvents (events : Mask) : Mask :=
  (if events &&& eventRead ≠ 0 then epollIn ||| epollEt else 0) |||
    (if events &&& eventWrite ≠ 0 then epollOut ||| epollEt else 0)

/-- `struct event`, without its link; `cb` names the callback (`none` is `NULL`). -/
structure Event where
  fd : Int
  events : Mask
  edata : Int
  cb : Option Nat
  data : Nat
  deriving DecidableEq

/-- What `next` of a table entry points to: a list of events (`NULL` when empty), or
memory that has been freed. -/
inductive EventChain where
  | events (es : List Event)
  | freed
  deriving DecidableEq

/-- `struct ANFD`. -/
structure Anfd where
  isused : Int
  fd : Int
  events : Mask
  next : EventChain
  deriving DecidableEq

/-- An entry as `init_events` writes it. -/
def Anfd.fresh : Anfd := { isused := 0, fd := 0, events := 0, next := .events [] }

/-- Read the list of an entry. -/
def EventChain.read : EventChain → Except Fault (List Event)
  | .events es => .ok es
  | .freed => .error .dangling

/-- The union of the masks of a list of events. -/
def unionMask (es : List Event) : Mask := es.foldl (fun mask e => mask ||| e.events) 0

/-! ## The kernel -/

/-- The interest masks registered with one epoll instance. -/
abbrev Epoll := Int → Option Mask

/-- `epoll_ctl(EPOLL_CTL_ADD)`; `none` is -1. -/
def Epoll.add (epoll : Epoll) (fd : Int) (mask : Mask) : Option Epoll :=
  match epoll fd with
  | some _ => none
  | none => some (Function.update epoll fd (some mask))

/-- `epoll_ctl(EPOLL_CTL_MOD)`. -/
def Epoll.mod (epoll : Epoll) (fd : Int) (mask : Mask) : Option Epoll :=
  match epoll fd with
  | some _ => some (Function.update epoll fd (some mask))
  | none => none

/-- `epoll_ctl(EPOLL_CTL_DEL)`. -/
def Epoll.del (epoll : Epoll) (fd : Int) : Option Epoll :=
  match epoll fd with
  | some _ => some (Function.update epoll fd none)
  | none => none

/-! ## The table -/

/-- `EventLoop`; `max_events` is the length of `anfds`. -/
structure EventLoop where
  anfds : List Anfd
  shutdownfd : Int
  epoll : Epoll

namespace EventLoop

/-- `INIT_EVENTS`. -/
def initEvents : Nat := 1000

/-- The constructor and `init`, which registers the loop's own socket. -/
def init (shutdownfd : Int) : EventLoop where
  anfds := List.replicate initEvents Anfd.fresh
  shutdownfd := shutdownfd
  epoll := Function.update (fun _ => none) shutdownfd (some (epollIn ||| epollEt))

def maxEvents (s : EventLoop) : Int := s.anfds.length

/-- The entry of a descriptor; outside the table there is a fresh one. -/
def entry (s : EventLoop) (fd : Int) : Anfd :=
  if 0 ≤ fd then s.anfds.getD fd.toNat Anfd.fresh else Anfd.fresh

/-- The lvalue `anfds[fd]`. -/
def load (s : EventLoop) (fd : Int) : Except Fault Anfd :=
  if 0 ≤ fd ∧ fd < s.maxEvents then .ok (s.entry fd) else .error .outOfBounds

def store (s : EventLoop) (fd : Int) (a : Anfd) : EventLoop :=
  { s with anfds := s.anfds.set fd.toNat a }

/-- `INT_MAX`. -/
def intMax : Nat := 2147483647

/-- `newcnt += (newcnt >> 1) + 16`. -/
def growOnce (newcnt : Nat) : Nat := newcnt + newcnt / 2 + 16

/-- The loop of `array_needsize`; `newcnt` is an `int`. -/
def growCount (needCnt newcnt : Nat) : Except Fault Nat :=
  if growOnce newcnt > intMax then .error .overflow
  else if needCnt > growOnce newcnt then growCount needCnt (growOnce newcnt)
  else .ok (growOnce newcnt)
termination_by needCnt - newcnt
decreasing_by
  unfold growOnce at *
  omega

/-- `array_needsize`, with the answer of `realloc`; `none` is false. -/
def arrayNeedsize (s : EventLoop) (needCnt : Int) (reallocOk : Bool) :
    Except Fault (Option EventLoop) :=
  if needCnt > s.maxEvents then do
    let newcnt ← growCount needCnt.toNat s.anfds.length
    if reallocOk then
      .ok (some { s with
        anfds := s.anfds ++ List.replicate (newcnt - s.anfds.length) Anfd.fresh })
    else .ok none
  else .ok (some s)

/-- `fd + 1`, an `int`. -/
def nextFd (fd : Int) : Except Fault Int :=
  if fd ≥ intMax then .error .overflow else .ok (fd + 1)

/-- The first lines of `add_event`: a table that has the descriptor; `none` returns false. -/
def makeRoom (s : EventLoop) (fd : Int) (reallocOk : Bool) : Except Fault (Option EventLoop) :=
  if fd ≥ s.maxEvents then do
    let needCnt ← nextFd fd
    s.arrayNeedsize needCnt reallocOk
  else .ok (some s)

/-! ## The operations -/

/-- The last part of `add_event`: recompute the cached mask. -/
def refreshEvents (s : EventLoop) (fd : Int) : Except Fault EventLoop := do
  let a ← s.load fd
  let es ← a.next.read
  .ok (s.store fd { a with events := unionMask es })

/-- Link a new event into the table; also whether epoll has to be told. -/
def linkEvent (s : EventLoop) (ev : Event) : Except Fault (EventLoop × Bool) := do
  let a ← s.load ev.fd
  if a.isused = 1 then
    if a.events ||| ev.events ≠ a.events then
      match ← a.next.read with
      | [] => .error .nullPointer
      | e :: es => .ok (s.store ev.fd { a with next := .events (e :: es ++ [ev]) }, true)
    else .ok (s, false)
  else .ok (s.store ev.fd { a with isused := 1, next := .events [ev] }, true)

/-- `add_event` for a descriptor inside the table. -/
def addInside (s : EventLoop) (ev : Event) (ctlPoll : Bool) :
    Except Fault (EventLoop × Bool) := do
  let (s, needAddToEpoll) ← s.linkEvent ev
  if needAddToEpoll ∧ ctlPoll then
    match s.epoll.add ev.fd (epollEvents ev.events) with
    | none => .ok (s, false)
    | some epoll => do
      let s ← { s with epoll := epoll }.refreshEvents ev.fd
      .ok (s, true)
  else do
    let s ← s.refreshEvents ev.fd
    .ok (s, true)

/-- `add_event`. -/
def addEvent (s : EventLoop) (ev : Event) (ctlPoll reallocOk : Bool) :
    Except Fault (EventLoop × Bool) := do
  match ← s.makeRoom ev.fd reallocOk with
  | none => .ok (s, false)
  | some s => s.addInside ev ctlPoll

/-- The loop of `delete_event` over the events behind the first: clear the bits of the
mask in those that share one, and drop the ones left without bits. -/
def clearMask (mask : Mask) : List Event → List Event
  | [] => []
  | e :: es =>
    if (e.events &&& mask).toInt > 0 then
      if e.events ^^^ mask = 0 then clearMask mask es
      else { e with events := e.events ^^^ mask } :: clearMask mask es
    else e :: clearMask mask es

/-- `delete_event`. -/
def deleteEvent (s : EventLoop) (ev : Event) : Except Fault (EventLoop × Bool) :=
  if ev.fd < 0 ∨ ev.fd > s.maxEvents then .ok (s, false)
  else do
    let a ← s.load ev.fd
    if a.isused = 1 then
      if a.events &&& ev.events = 0 then .ok (s, true)
      else
        match ← a.next.read with
        | [] => .error .nullPointer
        | first :: rest =>
          let rest := clearMask ev.events rest
          let events := a.events ^^^ ev.events
          let es := if events = 0 then rest else first :: rest
          let s := s.store ev.fd { a with events := events, next := .events es }
          -- a failure of epoll_ctl is only reported
          .ok ({ s with epoll := (s.epoll.del ev.fd).getD s.epoll }, true)
    else .ok (s, true)

/-- `mod_ev_only`. -/
def modEvOnly (s : EventLoop) (ev : Event) : Except Fault (EventLoop × Bool) :=
  if ev.fd < 0 ∨ ev.fd > s.maxEvents then .ok (s, false)
  else do
    let a ← s.load ev.fd
    if a.isused = 1 then
      match s.epoll.mod ev.fd (epollEvents ev.events) with
      | none => .ok (s, false)
      | some epoll => .ok ({ s with epoll := epoll }, true)
    else .ok (s, false)

/-- `mod_event`. -/
def modEvent (s : EventLoop) (ev : Event) (reallocOk : Bool) :
    Except Fault (EventLoop × Bool) :=
  if ev.fd < 0 ∨ ev.fd > s.maxEvents then .ok (s, false)
  else do
    let a ← s.load ev.fd
    if a.isused = 1 then do
      -- every event of the list is freed
      let _ ← a.next.read
      let s := s.store ev.fd { a with isused := 0, next := .events [] }
      let (s, added) ← s.addEvent ev false reallocOk
      if added then s.modEvOnly ev else .ok (s, false)
    else .ok (s, false)

/-- `event_stop`; `next` and the cached mask stay as they are. -/
def eventStop (s : EventLoop) (fd : Int) : Except Fault (EventLoop × Bool) := do
  let a ← s.load fd
  if a.isused = 1 then do
    let _ ← a.next.read
    let s := s.store fd { a with isused := 0, next := .freed }
    .ok ({ s with epoll := (s.epoll.del fd).getD s.epoll }, true)
  else .ok (s, true)

/-! ## The public interface -/

/-- A call of `event_ctl` or `event_stop`, with the answer `realloc` gives if asked. -/
inductive EventOp where
  | add (ev : Event) (reallocOk : Bool)
  | del (ev : Event)
  | mod (ev : Event) (reallocOk : Bool)
  | stop (fd : Int)

/-- `event_ctl` and `event_stop`. -/
def eventCtl (s : EventLoop) : EventOp → Except Fault (EventLoop × Bool)
  | .add ev reallocOk => s.addEvent ev true reallocOk
  | .del ev => s.deleteEvent ev
  | .mod ev reallocOk => s.modEvent ev reallocOk
  | .stop fd => s.eventStop fd

end EventLoop

end Sails.Base
