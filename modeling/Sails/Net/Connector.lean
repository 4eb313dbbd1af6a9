import Sails.Base.Buffer

/-!
# `net::Connector`

A connection: identity, peer address, descriptor, state flags and the two buffers. Connectors
are shared by pointer, so a program state holds one `Connectors` memory and everything else
refers to a connector by its address.

- `Connector.ofFd`: the constructor for an accepted descriptor
- `close`, `destructor`: which descriptor they close
- `read`, `write`, `send`: the buffered input and output
-/

namespace Sails.Net

open TransitionRun (Fault)
open CMemory
open Sails.Base

/-- The kernel's answer to `::write(fd, p, len)`: it fails, or takes a number of the bytes
offered. -/
inductive WriteAnswer where
  | failed (errno : Errno)
  | took (n : Nat)
  deriving DecidableEq, Repr

/-- The bytes of the offer that the kernel takes. -/
def WriteAnswer.taken (answer : WriteAnswer) (offer : Bytes) : Bytes :=
  match answer with
  | .failed _ => []
  | .took n => offer.take n

/-- The eight bytes of the union `ExtData`. -/
abbrev ExtData := CharArray 8

/-- `net::Connector`. -/
structure Connector where
  id : UInt32
  ip : Bytes
  port : UInt16
  listenFd : Int
  connectFd : Int
  isClosed : Bool
  isTimeout : Bool
  lastRefreshTime : Int
  timeout : Int
  /-- whether `timeoutCB` is set; the only callback ever set is `NetThread::timeoutCb` -/
  timeoutCB : Bool
  /-- whether `owner` is set -/
  owner : Bool
  data : ExtData
  inBuf : Buffer
  outBuf : Buffer

/-- A `std::shared_ptr<Connector>` that is not null. -/
abbrev ConnectorPtr := Nat

/-- The connectors in memory. -/
abbrev Connectors := ConnectorPtr → Connector

/-- Replace one connector. -/
def Connectors.set (connectors : Connectors) (conn : ConnectorPtr) (c : Connector) : Connectors :=
  fun p => if p = conn then c else connectors p

@[simp] theorem Connectors.set_self (connectors : Connectors) (conn : ConnectorPtr) (c : Connector) :
    connectors.set conn c conn = c := if_pos rfl

theorem Connectors.set_ne {connectors : Connectors} {p conn : ConnectorPtr} {c : Connector}
    (h : p ≠ conn) : connectors.set conn c p = connectors p := if_neg h

namespace Connector

/-- `READBYTES`. -/
def readBytes : Nat := 512

/-- `Connector(int conn_fd)`. The constructor leaves `lastRefreshTime`, `timeout` and `data`
as they are in memory. -/
def ofFd (connFd lastRefreshTime timeout : Int) (data : ExtData) : Connector where
  id := 0
  ip := []
  port := 0
  listenFd := 0
  connectFd := connFd
  isClosed := false
  isTimeout := false
  lastRefreshTime := lastRefreshTime
  timeout := timeout
  timeoutCB := false
  owner := false
  data := data
  inBuf := Buffer.init
  outBuf := Buffer.init

/-! ## Fields -/

/-- `setLastRefreshTime(int)`, called with a `time_t`. -/
def setLastRefreshTime (c : Connector) (time : Int) : Connector :=
  { c with lastRefreshTime := time.bmod (2 ^ 32) }

/-- `set_timeout` without the callback it ends with. -/
def setIsTimeout (c : Connector) : Connector := { c with isTimeout := true }

/-! ## Descriptor -/

/-- The condition under which the connector touches its descriptor. -/
def isOpen (c : Connector) : Bool := !c.isClosed && decide (0 < c.connectFd)

/-- `close`: the connector and the descriptor it closes. -/
def close (c : Connector) : Connector × Option Int :=
  if c.isOpen then ({ c with isClosed := true }, some c.connectFd) else (c, none)

/-- `~Connector`: the descriptor it closes. -/
def destructor (c : Connector) : Option Int :=
  if c.isClosed then none else some c.connectFd

/-! ## Input and output -/

/-- `read`: the value returned is that of `::read`, or 0 when no system call is made. -/
def read (c : Connector) (answer : ReadAnswer readBytes) : Except Fault (Connector × Int) :=
  if c.isOpen then
    match c.inBuf.read readBytes answer with
    | .error e => .error e
    | .ok (inBuf, n) => .ok ({ c with inBuf := inBuf }, n)
  else .ok (c, 0)

/-- `write(data, len)`: queue `len` bytes of `data` in the output buffer. -/
def write (c : Connector) (data : Bytes) (len : Int) : Except Fault Connector :=
  if 0 < len then
    match c.outBuf.append (data.take len.toNat) with
    | .error e => .error e
    | .ok outBuf => .ok { c with outBuf := outBuf }
  else .ok c

/-- The bytes `send` offers to the kernel: `readable()` is converted to `int`, and nothing is
offered unless the result is positive. -/
def offered (c : Connector) : Bytes :=
  c.outBuf.peek.take (toInt32 c.outBuf.readable).toNat

/-- `send`: the connector, and the bytes handed to the kernel when `::write` is called. -/
def send (c : Connector) (answer : WriteAnswer) : Connector × Option Bytes :=
  if c.isOpen then
    if 0 < toInt32 c.outBuf.readable then
      let taken := answer.taken c.offered
      ({ c with outBuf := c.outBuf.retrieve taken.length }, some taken)
    else (c, none)
  else ({ c with outBuf := c.outBuf.retrieveAll }, none)

theorem taken_isPrefix (answer : WriteAnswer) (offer : Bytes) : answer.taken offer <+: offer := by
  cases answer with
  | failed errno => exact List.nil_prefix
  | took n => exact List.take_prefix n offer

/-- What is offered is the front of what is buffered. -/
theorem offered_isPrefix (c : Connector) : c.offered <+: c.outBuf.content := by
  rw [offered, Buffer.content_eq_take_peek]
  apply List.take_prefix_take_left
  have hle := toInt32_le c.outBuf.readable
  omega

/-- **One `send`**: the bytes handed to the kernel leave the front of the output buffer. -/
theorem send_some {c : Connector} {answer : WriteAnswer} {taken : Bytes}
    (h : (c.send answer).2 = some taken) :
    c.outBuf.content = taken ++ (c.send answer).1.outBuf.content := by
  unfold send at h ⊢
  split at h
  · split at h
    · rename_i hopen hpos
      obtain rfl : answer.taken c.offered = taken := by simpa using h
      obtain ⟨rest, hrest⟩ := (taken_isPrefix answer c.offered).trans c.offered_isPrefix
      rw [if_pos hopen, if_pos hpos, Buffer.content_retrieve, ← hrest, List.drop_left]
    · simp at h
  · simp at h

/-- A `send` on an open connector that makes no system call changes nothing. -/
theorem send_none {c : Connector} {answer : WriteAnswer} (hopen : c.isOpen = true)
    (h : (c.send answer).2 = none) : (c.send answer).1 = c := by
  unfold send at h ⊢
  rw [if_pos hopen] at h ⊢
  split at h
  · simp at h
  · rename_i hpos
    rw [if_neg hpos]

end Connector

end Sails.Net
