import Sails.Library.OrderedMultimap
import Sails.Library.PackedId
import Sails.Net.Connector
import Mathlib.Data.Int.Order.Basic

/-!
# `net::ConnectorList`

The table of a net thread's connections: a free list of slot numbers with its counter, the
slot array, and a multimap from deadlines to slot numbers into which every occupied slot
keeps an iterator. The functions are translated from `connector_list.cc`; an `assert` that
fails and an access outside the slot array are faults.

The list does not own the connectors' fields: whoever holds a pointer may change them, so
the functions take the connectors in memory as an argument.

- `magicOf`, `slotOf`: the two parts of a connector's id
- `init`, `getUniqId`, `get`, `add`, `refresh`, `checkTimeout`, `del`, `size`
-/

namespace Sails.Net

open TransitionRun (Fault)

/-! ## Ids -/

/-- `uid & (0xFFFFFFFF << 20)`. -/
def magicOf (uid : UInt32) : UInt32 := uid &&& 0xFFF00000

/-- `uid & (0x7FFFFFFF >> 11)`. -/
def slotOf (uid : UInt32) : Nat := (uid &&& 0xFFFFF).toNat

/-- The masks of a connector's id. -/
def connectorMasks : IdMasks where
  high := 0xFFF00000
  low := 0xFFFFF
  bits := 20
  split := by decide
  disjoint := by decide
  low_eq := by decide
  bits_le := by decide

theorem slotOf_eq (uid : UInt32) : slotOf uid = uid.toNat % 2 ^ 20 := connectorMasks.slot_eq uid

/-- A word without a slot number is a magic. -/
theorem magicOf_eq_self {m : UInt32} (h : slotOf m = 0) : magicOf m = m :=
  connectorMasks.magic_eq_self h

/-- **Ids**: from `_iConnectionMagic | uid` the masks recover both parts. -/
theorem magicOf_or {m : UInt32} {n : Nat} (hm : slotOf m = 0) (hn : n < 2 ^ 20) :
    magicOf (m ||| UInt32.ofNat n) = m := connectorMasks.magic_or hm hn

theorem slotOf_or {m : UInt32} {n : Nat} (hm : slotOf m = 0) (hn : n < 2 ^ 20) :
    slotOf (m ||| UInt32.ofNat n) = n := connectorMasks.slot_or hm hn

/-- An id is determined by its two parts. -/
theorem uid_ext {a b : UInt32} (hmagic : magicOf a = magicOf b) (hslot : slotOf a = slotOf b) :
    a = b := connectorMasks.ext hmagic hslot

/-! ## The list -/

/-- `list_data`: the connector in a slot and its iterator into the timeout list. -/
structure ListData where
  first : Option ConnectorPtr
  second : Nat
  deriving DecidableEq

/-- `net::ConnectorList` after `init`. Slot 0 of the array is never used. -/
structure ConnectorList where
  total : Nat
  free : List Nat
  freeSize : Nat
  vConn : List ListData
  tl : OrderedMultimap Int Nat
  lastTimeoutTime : Int
  iConnectionMagic : UInt32
  length_vConn : vConn.length = total + 1

namespace ConnectorList

/-- `_vConn[slot].first`; outside the array there is nothing. -/
def first (l : ConnectorList) (slot : Nat) : Option ConnectorPtr :=
  l.vConn[slot]?.bind ListData.first

/-- `_vConn[slot] = std::make_pair(conn, it)`. -/
def store (l : ConnectorList) (slot : Nat) (d : ListData) : ConnectorList :=
  { l with
    vConn := l.vConn.set slot d
    length_vConn := by rw [List.length_set, l.length_vConn] }

/-- `init(size, iIndex)` on a list that was just constructed, at time `now`. -/
def init (size : Nat) (iIndex : UInt32) (now : Int) : ConnectorList where
  total := size
  free := List.range' 1 size
  freeSize := size
  vConn := List.replicate (size + 1) ⟨none, 0⟩
  tl := OrderedMultimap.empty
  lastTimeoutTime := now
  iConnectionMagic :=
    ((UInt32.ofInt now <<< 24) &&& (0xFF000000 : UInt32)) + ((iIndex <<< 20) &&& (0xFFF00000 : UInt32))
  length_vConn := List.length_replicate

/-- `getUniqId`. -/
def getUniqId (l : ConnectorList) : Except Fault (UInt32 × ConnectorList) :=
  match l.free with
  | [] => .error .outOfBounds  -- `front()` of an empty list
  | uid :: rest =>
    if 0 < uid ∧ uid ≤ l.total then
      .ok (l.iConnectionMagic ||| UInt32.ofNat uid,
        { l with free := rest, freeSize := l.freeSize - 1 })
    else .error .assertion

/-- `get`: an id with another magic is not looked up. -/
def get (l : ConnectorList) (uid : UInt32) : Except Fault (Option ConnectorPtr) :=
  if magicOf uid = l.iConnectionMagic then
    match l.vConn[slotOf uid]? with
    | none => .error .outOfBounds
    | some d => .ok d.first
  else .ok none

/-- `add`: the slot of the connector's id has to be empty. -/
def add (l : ConnectorList) (connectors : Connectors) (conn : ConnectorPtr) (stamp : Int) :
    Except Fault ConnectorList :=
  let muid := (connectors conn).id
  if magicOf muid = l.iConnectionMagic ∧ 0 < slotOf muid ∧ slotOf muid ≤ l.total ∧
      l.first (slotOf muid) = none then
    let (tl, it) := l.tl.insert stamp (slotOf muid)
    .ok ({ l with tl := tl }.store (slotOf muid) ⟨some conn, it⟩)
  else .error .assertion

/-- The assertion `refresh` and `del` begin with: the connector and the iterator in the slot
of an id, which has to be occupied. -/
def occupant (l : ConnectorList) (uid : UInt32) : Except Fault (ConnectorPtr × Nat) :=
  if magicOf uid = l.iConnectionMagic ∧ 0 < slotOf uid ∧ slotOf uid ≤ l.total then
    match l.vConn[slotOf uid]? with
    | some ⟨some conn, it⟩ => .ok (conn, it)
    | _ => .error .assertion
  else .error .assertion

/-- `refresh`: at most once a second, move the slot to a new deadline. -/
def refresh (l : ConnectorList) (connectors : Connectors) (uid : UInt32) (stamp : Int) :
    Except Fault (ConnectorList × Connectors) := do
  let (conn, it) ← l.occupant uid
  if stamp - (connectors conn).lastRefreshTime < 1 then
    .ok (l, connectors)
  else do
    let tl ← l.tl.erase it
    let (tl, it) := tl.insert stamp (slotOf uid)
    .ok ({ l with tl := tl }.store (slotOf uid) ⟨some conn, it⟩,
      connectors.set conn ((connectors conn).setLastRefreshTime stamp))

/-- One round of the loop of `checkTimeout`: time the connector of an entry out, unless it is
the listening port of a datagram server. `callback` is what `timeoutCB` does to the connectors. -/
def timeoutEntry (l : ConnectorList) (callback : Connectors → ConnectorPtr → Connectors)
    (connectors : Connectors) (e : MultimapEntry Int Nat) : Except Fault Connectors :=
  match l.first e.value with
  | none => .error .nullPointer
  | some conn =>
    if (connectors conn).listenFd = -1 then .ok connectors
    else
      let connectors' := connectors.set conn (connectors conn).setIsTimeout
      .ok (if (connectors conn).timeoutCB then callback connectors' conn else connectors')

/-- The loop of `checkTimeout`. -/
def timeoutEntries (l : ConnectorList) (callback : Connectors → ConnectorPtr → Connectors)
    (connectors : Connectors) : List (MultimapEntry Int Nat) → Except Fault Connectors
  | [] => .ok connectors
  | e :: rest => do
    let connectors ← l.timeoutEntry callback connectors e
    l.timeoutEntries callback connectors rest

/-- `checkTimeout`: at most once a second, visit the deadlines up to now. The callbacks leave
the list alone, so the loop runs over the entries there are when it starts. -/
def checkTimeout (l : ConnectorList) (connectors : Connectors)
    (callback : Connectors → ConnectorPtr → Connectors) (iCurTime : Int) :
    Except Fault (ConnectorList × Connectors) :=
  if iCurTime - l.lastTimeoutTime < 1 then .ok (l, connectors)
  else do
    let connectors ← l.timeoutEntries callback connectors (l.tl.upTo iCurTime)
    .ok ({ l with lastTimeoutTime := iCurTime }, connectors)

/-- `_del`. -/
def delSlot (l : ConnectorList) (slot : Nat) : Except Fault ConnectorList :=
  if 0 < slot ∧ slot ≤ l.total then
    match l.vConn[slot]? with
    | some ⟨some _, it⟩ => do
      let tl ← l.tl.erase it
      .ok ({ l with tl := tl, free := l.free ++ [slot], freeSize := l.freeSize + 1 }.store slot
        ⟨none, it⟩)
    | _ => .error .assertion
  else .error .assertion

/-- `del`. -/
def del (l : ConnectorList) (uid : UInt32) : Except Fault ConnectorList := do
  let _ ← l.occupant uid
  l.delSlot (slotOf uid)

/-- `size`. -/
def size (l : ConnectorList) : Nat := l.total - l.freeSize

end ConnectorList

end Sails.Net
