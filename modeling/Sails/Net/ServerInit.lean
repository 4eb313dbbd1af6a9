import Sails.Net.NetThreads

/-!
# `EpollServer::Init` and the dispatch indices (`net/epoll_server.h`)

- `netThreadCount`, `handleThreadCount`: the numbers of threads that `Init` makes of its arguments
- `EpollServer.init`: `Init`, with the threads it creates
- `getNetThreadOfFd`, `insertRecvData`: the threads a descriptor is given to
- `dispatchValid_iff`: the arguments with which every descriptor has a thread

`netThreadNum` is an `unsigned int` when it is compared with 0, so that a negative argument is a large
one; neither of the two tests is about 0 itself.
-/

namespace Sails.Net

open TransitionRun (Fault ok_of_bind)

/-! ## `Init` -/

/-- The server with its threads, each by the number it is created with. -/
structure EpollServer where
  listenPort : Int32
  runMode : Int32
  netThreads : List Nat
  handleThreads : List Nat
  netThreadNum : UInt32
  handleThreadNum : UInt32
  connectorTimeout : Int32
  useMemoryPool : Bool

/-- `this->netThreadNum` after its tests. -/
def netThreadCount (netThreadNum : Int32) : UInt32 :=
  let num := netThreadNum.toUInt32
  -- never: the field is unsigned, and a negative argument ends in the next case
  if num < 0 then 1
  else if num > 15 then 15
  else num

/-- `this->handleThreadNum` after its tests. -/
def handleThreadCount (handleThreadNum : Int32) : UInt32 :=
  if handleThreadNum < 0 then 1
  else if handleThreadNum > 15 then 15
  else handleThreadNum.toUInt32

/-- `threads[i]`. -/
def threadAt (threads : List Nat) (i : Nat) : Except Fault Nat :=
  match threads[i]? with
  | some t => .ok t
  | none => .error .outOfBounds

/-- A member function called on the first `n` threads. -/
def forThreads (threads : List Nat) (n : Nat) : Except Fault Unit :=
  (List.range n).forM fun i => do
    let _ ← threadAt threads i
    return ()

/-! ### The two counts -/

theorem toInt32_eq_zero {x : Int32} (h : x.toUInt32 = 0) : x = 0 := by
  rw [← x.toInt32_toUInt32, h]
  rfl

theorem toNat_ne_zero {x : UInt32} (h : x ≠ 0) : x.toNat ≠ 0 :=
  fun h0 => h (UInt32.toNat_inj.mp h0)

theorem netThreadCount_le (n : Int32) : netThreadCount n ≤ 15 := by
  simp only [netThreadCount]
  grind

/-- A count of 0 is kept: no `unsigned int` is less than 0. -/
theorem netThreadCount_eq_zero (n : Int32) : netThreadCount n = 0 ↔ n = 0 := by
  constructor
  · intro h
    apply toInt32_eq_zero
    simp only [netThreadCount] at h
    grind
  · rintro rfl
    rfl

theorem handleThreadCount_le (n : Int32) : handleThreadCount n ≤ 15 := by
  rw [handleThreadCount]
  split_ifs with hneg hbig
  · decide
  · decide
  · exact Int32.toUInt32_le (Int32.not_lt.mp hneg) (Int32.not_lt.mp hbig)

/-- A count of 0 is kept: 0 is neither less than 0 nor above 15. -/
theorem handleThreadCount_eq_zero (n : Int32) : handleThreadCount n = 0 ↔ n = 0 := by
  constructor
  · intro h
    apply toInt32_eq_zero
    rw [handleThreadCount] at h
    grind
  · rintro rfl
    rfl

/-! ### The threads by number -/

theorem threadAt_of_lt {threads : List Nat} {i : Nat} (h : i < threads.length) :
    ∃ t, threadAt threads i = .ok t := by
  refine ⟨threads[i], ?_⟩
  rw [threadAt, List.getElem?_eq_getElem h]

/-- A function of the first `n` threads is called on threads that exist when there are as many. -/
theorem forThreads_of_le {threads : List Nat} {n : Nat} (h : n ≤ threads.length) :
    forThreads threads n = .ok () := by
  have hall : ∀ is : List Nat, (∀ i ∈ is, i < threads.length) →
      (is.forM fun i => do
        let _ ← threadAt threads i
        return () : Except Fault Unit) = .ok () := by
    intro is
    induction is with
    | nil => intro _; rfl
    | cons i is ih =>
      intro hlt
      obtain ⟨t, ht⟩ := threadAt_of_lt (hlt i List.mem_cons_self)
      rw [List.forM_eq_forM, List.forM_cons, ht]
      exact ih fun j hj => hlt j (List.mem_cons_of_mem i hj)
  refine hall _ fun i hi => ?_
  have := List.mem_range.mp hi
  omega

namespace EpollServer

/-- The constructor. -/
def new : EpollServer where
  listenPort := 0
  runMode := 1
  netThreads := []
  handleThreads := []
  netThreadNum := 0
  handleThreadNum := 0
  connectorTimeout := 0
  useMemoryPool := false

/-- The net threads that are created. -/
def createNetThreads (s : EpollServer) (num : UInt32) : EpollServer :=
  { s with netThreadNum := num, netThreads := s.netThreads ++ List.range num.toNat }

/-- The handle threads that are created. -/
def createHandleThreads (s : EpollServer) (num : UInt32) : EpollServer :=
  { s with handleThreadNum := num, handleThreads := s.handleThreads ++ List.range num.toNat }

/-- `Bind`, which binds the first net thread. -/
def bindPort (s : EpollServer) (port : Int32) : Except Fault EpollServer := do
  let _ ← threadAt s.netThreads 0
  return { s with listenPort := port }

/-- `Init`. -/
def init (s : EpollServer) (port netThreadNum timeout handleThreadNum : Int32)
    (useMemoryPool : Bool) (runMode : Int32) : Except Fault EpollServer := do
  let s := { s with runMode := runMode, useMemoryPool := useMemoryPool }
  let s := s.createNetThreads (netThreadCount netThreadNum)
  forThreads s.netThreads s.netThreadNum.toNat  -- `CreateEpoll`
  let s := { s with connectorTimeout := timeout }
  let s ← s.bindPort port
  let s := s.createHandleThreads (handleThreadCount handleThreadNum)
  forThreads s.netThreads s.netThreadNum.toNat  -- `StartNetThread`
  return s

/-- The server after `Init` with `nets` net threads and `handles` handle threads. -/
def started (port timeout : Int32) (nets handles : UInt32) (useMemoryPool : Bool)
    (runMode : Int32) : EpollServer where
  listenPort := port
  runMode := runMode
  netThreads := List.range nets.toNat
  handleThreads := List.range handles.toNat
  netThreadNum := nets
  handleThreadNum := handles
  connectorTimeout := timeout
  useMemoryPool := useMemoryPool

theorem init_of_ne {port netThreadNum timeout handleThreadNum : Int32} {useMemoryPool : Bool}
    {runMode : Int32} (h : netThreadNum ≠ 0) :
    new.init port netThreadNum timeout handleThreadNum useMemoryPool runMode =
      .ok (started port timeout (netThreadCount netThreadNum) (handleThreadCount handleThreadNum)
        useMemoryPool runMode) := by
  -- there is a first net thread for `Bind`, and as many as are started
  have hne : netThreadCount netThreadNum ≠ 0 := fun h0 => h ((netThreadCount_eq_zero _).mp h0)
  have hpos : 0 < (netThreadCount netThreadNum).toNat := Nat.pos_of_ne_zero (toNat_ne_zero hne)
  have hlen : (List.range (netThreadCount netThreadNum).toNat).length =
      (netThreadCount netThreadNum).toNat := List.length_range
  have hall := forThreads_of_le hlen.ge
  obtain ⟨t, ht⟩ := threadAt_of_lt (hlen.symm ▸ hpos)
  simp only [init, new, createNetThreads, createHandleThreads, bindPort, bind, Except.bind,
    pure, Except.pure, List.nil_append, hall, ht]
  rfl

/-- Without net threads, `Bind` has no thread to call. -/
theorem init_zero (port timeout handleThreadNum : Int32) (useMemoryPool : Bool)
    (runMode : Int32) :
    new.init port 0 timeout handleThreadNum useMemoryPool runMode = .error .outOfBounds := by
  rfl

/-! ## The threads of a descriptor -/

/-- `GetNetThreadOfFd(fd)`. -/
def getNetThreadOfFd (s : EpollServer) (fd : Int32) : Except Fault Nat :=
  if s.netThreads.length = 0 then .error .divisionByZero
  else threadAt s.netThreads (netThreadOfFd s.netThreads.length fd.toInt)

/-- `GetHandleNum()`. -/
def getHandleNum (s : EpollServer) : Int := CMemory.toInt32 s.handleThreads.length

/-- `InsertRecvData` on the data of a descriptor: the handle thread it is added for, or `none` for the
queue of the server. -/
def insertRecvData (s : EpollServer) (fd : Int32) : Except Fault (Option Nat) :=
  if s.runMode = 1 then .ok none
  else if s.getHandleNum = 0 then .error .divisionByZero
  else do
    -- a negative index is a large one in `operator[]`
    let selectedHandle := (fd.toInt.tmod s.getHandleNum % 2 ^ 64).toNat
    let t ← threadAt s.handleThreads selectedHandle
    return some t

theorem getNetThreadOfFd_of_ne {s : EpollServer} (h : s.netThreads.length ≠ 0) (fd : Int32) :
    ∃ t, s.getNetThreadOfFd fd = .ok t := by
  rw [getNetThreadOfFd, if_neg h]
  exact threadAt_of_lt (netThreadOfFd_lt h _)

theorem insertRecvData_of_lt {s : EpollServer} {fd : Int32} (hmode : s.runMode ≠ 1)
    (hne : s.handleThreads.length ≠ 0) (hlt : s.handleThreads.length < 2 ^ 31) (hfd : 0 ≤ fd) :
    ∃ t, s.insertRecvData fd = .ok (some t) := by
  have hnum : s.getHandleNum = s.handleThreads.length := CMemory.toInt32_of_lt hlt
  have hnum0 : s.getHandleNum ≠ 0 := by omega
  have hpos : (0 : Int) < s.handleThreads.length := by omega
  have hnonneg : 0 ≤ fd.toInt := Int32.le_iff_toInt_le.mp hfd
  -- of two integers that are not negative, the remainder is the usual one
  have hmod : fd.toInt.tmod s.handleThreads.length = fd.toInt % s.handleThreads.length :=
    Int.tmod_eq_emod_of_nonneg hnonneg
  have hge := Int.emod_nonneg fd.toInt hpos.ne'
  have hless := Int.emod_lt_of_pos fd.toInt hpos
  have hindex : (fd.toInt.tmod s.getHandleNum % 2 ^ 64).toNat < s.handleThreads.length := by
    rw [hnum, hmod, Int.emod_eq_of_lt hge (by omega)]
    omega
  obtain ⟨t, ht⟩ := threadAt_of_lt hindex
  refine ⟨t, ?_⟩
  rw [insertRecvData, if_neg hmode, if_neg hnum0]
  simp only [ht, bind, Except.bind, pure, Except.pure]

/-- **The dispatch indices are valid** after `Init` on a new server. -/
def DispatchValid (port netThreadNum timeout handleThreadNum : Int32) (useMemoryPool : Bool)
    (runMode : Int32) : Prop :=
  ∃ s, new.init port netThreadNum timeout handleThreadNum useMemoryPool runMode = .ok s ∧
    (1 ≤ s.netThreadNum ∧ s.netThreadNum ≤ 15 ∧ s.netThreadNum.toNat = s.netThreads.length) ∧
    (1 ≤ s.handleThreadNum ∧ s.handleThreadNum ≤ 15 ∧
      s.handleThreadNum.toNat = s.handleThreads.length) ∧
    ∀ fd : Int32, 0 ≤ fd → (∃ t, s.getNetThreadOfFd fd = .ok t) ∧
      (runMode = 2 → ∃ t, s.insertRecvData fd = .ok (some t))

/-- A server with threads of both kinds, not more than 15 of each, gives every descriptor one. -/
theorem started_dispatches {port timeout runMode : Int32} {nets handles : UInt32}
    {useMemoryPool : Bool} (hn0 : nets ≠ 0) (hh0 : handles ≠ 0) (hh : handles ≤ 15)
    {fd : Int32} (hfd : 0 ≤ fd) :
    (∃ t, (started port timeout nets handles useMemoryPool runMode).getNetThreadOfFd fd = .ok t) ∧
    (runMode = 2 → ∃ t,
      (started port timeout nets handles useMemoryPool runMode).insertRecvData fd =
        .ok (some t)) := by
  have hnlen : (started port timeout nets handles useMemoryPool runMode).netThreads.length =
      nets.toNat := List.length_range
  have hhlen : (started port timeout nets handles useMemoryPool runMode).handleThreads.length =
      handles.toNat := List.length_range
  have hle : handles.toNat ≤ 15 := UInt32.le_iff_toNat_le.mp hh
  constructor
  · refine getNetThreadOfFd_of_ne ?_ fd
    rw [hnlen]
    exact toNat_ne_zero hn0
  · rintro rfl
    refine insertRecvData_of_lt ?_ ?_ ?_ hfd
    · exact (by decide : (2 : Int32) ≠ 1)
    · rw [hhlen]
      exact toNat_ne_zero hh0
    · omega

/-- **Valid dispatch**: every descriptor has its threads if and only if neither number of threads
that `Init` is given is 0. -/
theorem dispatchValid_iff (port netThreadNum timeout handleThreadNum : Int32)
    (useMemoryPool : Bool) (runMode : Int32) :
    DispatchValid port netThreadNum timeout handleThreadNum useMemoryPool runMode ↔
      netThreadNum ≠ 0 ∧ handleThreadNum ≠ 0 := by
  constructor
  · rintro ⟨s, hinit, -, ⟨hone, -, -⟩, -⟩
    have hnet : netThreadNum ≠ 0 := by
      rintro rfl
      rw [init_zero] at hinit
      cases hinit
    refine ⟨hnet, ?_⟩
    rintro rfl
    -- `Init` returns, with no handle thread
    rw [init_of_ne hnet] at hinit
    cases hinit
    exact absurd hone (by decide : ¬ (1 : UInt32) ≤ 0)
  · rintro ⟨hnet, hhandle⟩
    have hn0 : netThreadCount netThreadNum ≠ 0 :=
      fun h => hnet ((netThreadCount_eq_zero _).mp h)
    have hh0 : handleThreadCount handleThreadNum ≠ 0 :=
      fun h => hhandle ((handleThreadCount_eq_zero _).mp h)
    refine ⟨_, init_of_ne hnet, ⟨?_, netThreadCount_le _, List.length_range.symm⟩,
      ⟨?_, handleThreadCount_le _, List.length_range.symm⟩, ?_⟩
    · show 1 ≤ netThreadCount netThreadNum
      grind
    · show 1 ≤ handleThreadCount handleThreadNum
      grind
    · intro fd hfd
      exact started_dispatches hn0 hh0 (handleThreadCount_le _) hfd

/-- No handle threads are asked for: `Init` makes none. -/
theorem dispatchValid_no_handles : ¬ DispatchValid 8000 1 10 0 true 2 := by
  rintro ⟨s, hinit, -, ⟨hone, -, -⟩, -⟩
  rw [init_of_ne (by decide)] at hinit
  cases hinit
  exact absurd hone (by decide : ¬ (1 : UInt32) ≤ 0)

end EpollServer

end Sails.Net
