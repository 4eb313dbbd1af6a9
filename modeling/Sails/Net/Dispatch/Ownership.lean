import Sails.Library.Ledger
import Sails.Net.Dispatch
import Mathlib.Data.List.Count

/-!
# Who owns a packet and its record

- `Place`, `contents`: the queues and the threads, and the records each of them has
- `MemoryOk`: what the log says of packets and records agrees with memory
- `Careful`: the condition under which the clean-ups agree with each other
- `packets_released_once`: in a run whose steps all meet it no step fails, each packet and each
  record is released at most once, by the allocator it is from, and both are when the packet has
  been handled or refused
-/

namespace Sails.Net

open TransitionRun
open CMemory Sails.Base Ledger

/-! ## Places -/

/-- Where a record may be. -/
inductive Place where
  | net (k : Nat)
  | recvlist
  | handlelist (i : Nat)
  | handle (i : Nat)
  deriving DecidableEq

/-- The record a net thread has in its hand. -/
def ParsePc.records : ParsePc → List RecordPtr
  | .testing _ r | .inserting _ r | .failed _ r => [r]
  | _ => []

/-- The record a handle thread has in its hand. -/
def HandlePc.records : HandlePc → List RecordPtr
  | .handling r | .cleaning r => [r]
  | _ => []

namespace Dispatch

variable {server : DispatchServer} {w w' u : Dispatch} {k i : Nat} {conn : ConnectorPtr}
  {r q : RecordPtr} {p : PacketPtr}

/-- The records at a place. -/
def contents (w : Dispatch) : Place → List RecordPtr
  | .net k => (w.netThreads k).records
  | .recvlist => w.recvlist.queue
  | .handlelist i => (w.handleThreads i).handlelist.queue
  | .handle i => (w.handleThreads i).pc.records

@[simp] theorem contents_emit (w : Dispatch) (events : List DispatchEvent) :
    (w.emit events).contents = w.contents := by
  funext p
  cases p <;> rfl

@[simp] theorem contents_setRecord (w : Dispatch) (r : RecordPtr) (record : Record) :
    (w.setRecord r record).contents = w.contents := by
  funext p
  cases p <;> rfl

theorem contents_setNet (w : Dispatch) (k : Nat) (pc : ParsePc) (p : Place) :
    (w.setNet k pc).contents p = if p = .net k then pc.records else w.contents p := by
  cases p with
  | net j =>
    by_cases hj : j = k
    · subst hj
      simp [contents, setNet]
    · simp [contents, setNet, hj]
  | _ => rfl

theorem contents_setHandle (w : Dispatch) (i : Nat) (t : HandleThread) (p : Place) :
    (w.setHandle i t).contents p =
      if p = .handlelist i then t.handlelist.queue
      else if p = .handle i then t.pc.records else w.contents p := by
  cases p with
  | handlelist j =>
    by_cases hj : j = i
    · subst hj
      simp [contents, setHandle]
    · simp [contents, setHandle, hj]
  | handle j =>
    by_cases hj : j = i
    · subst hj
      simp [contents, setHandle]
    · simp [contents, setHandle, hj]
  | _ => rfl

/-! ## Memory -/

/-- The event releases the record. -/
def releasesOf (r : RecordPtr) : DispatchEvent → Bool
  | .released q _ => decide (q = r)
  | _ => false

/-- The record has been made and released. -/
def Gone (w : Dispatch) (r : RecordPtr) : Prop := r < w.nextRecord ∧ (w.records r).released = true

/-- The record has been made and is there. -/
def Live (w : Dispatch) (r : RecordPtr) : Prop := r < w.nextRecord ∧ (w.records r).released = false

/-- The log of the packets and records agrees with memory. Packets and records are made in pairs,
so they have the same numbers. -/
structure MemoryOk (server : DispatchServer) (w : Dispatch) : Prop where
  paired : w.nextPacket = w.nextRecord
  parsed : ∀ conn p r, .parsed conn p r ∈ w.log → p = r ∧ r < w.nextRecord
  data : ∀ r, w.Live r → (w.records r).value.data = some r
  deleted : ∀ r, w.Gone r → w.log.count (.deleted r) = 1
  released : ∀ r, w.Gone r → w.log.countP (releasesOf r) = 1
  kept : ∀ r, ¬ w.Gone r → w.log.count (.deleted r) = 0 ∧ w.log.countP (releasesOf r) = 0
  allocator : ∀ r a, .released r a ∈ w.log → a = recordAllocator server

/-- The event says nothing of memory. -/
def Neutral : DispatchEvent → Prop
  | .inserted .. | .refused _ | .handled .. => True
  | _ => False

theorem not_gone_of_live (h : w.Live r) : ¬ w.Gone r := by
  intro hgone
  have hsame := h.2.symm.trans hgone.2
  cases hsame

/-- Records and counters are as they were, and the log has only neutral news. -/
structure SameMemory (w w' : Dispatch) : Prop where
  records : w'.records = w.records
  nextRecord : w'.nextRecord = w.nextRecord
  nextPacket : w'.nextPacket = w.nextPacket
  log : ∃ events, w'.log = w.log ++ events ∧ ∀ e ∈ events, Neutral e

theorem SameMemory.of_eq (hrecords : w'.records = w.records)
    (hnext : w'.nextRecord = w.nextRecord) (hpacket : w'.nextPacket = w.nextPacket)
    (hlog : w'.log = w.log) : SameMemory w w' :=
  ⟨hrecords, hnext, hpacket, [], by rw [hlog, List.append_nil], fun _ h => nomatch h⟩

theorem SameMemory.of_event {e : DispatchEvent} (he : Neutral e) (hrecords : w'.records = w.records)
    (hnext : w'.nextRecord = w.nextRecord) (hpacket : w'.nextPacket = w.nextPacket)
    (hlog : w'.log = w.log ++ [e]) : SameMemory w w' := by
  refine ⟨hrecords, hnext, hpacket, [e], hlog, ?_⟩
  intro e' he'
  rw [List.mem_singleton] at he'
  rwa [he']

theorem SameMemory.gone (h : SameMemory w w') (r : RecordPtr) : w'.Gone r ↔ w.Gone r := by
  rw [Gone, Gone, h.nextRecord, h.records]

theorem SameMemory.live (h : SameMemory w w') (r : RecordPtr) : w'.Live r ↔ w.Live r := by
  rw [Live, Live, h.nextRecord, h.records]

theorem MemoryOk.same (hm : MemoryOk server w) (h : SameMemory w w') : MemoryOk server w' := by
  obtain ⟨events, hlog, hneutral⟩ := h.log
  -- neutral events are counted by neither count
  have hdeleted : ∀ r, w'.log.count (.deleted r) = w.log.count (.deleted r) := by
    intro r
    have hzero : events.count (.deleted r) = 0 :=
      List.count_eq_zero_of_not_mem fun hmem => hneutral _ hmem
    rw [hlog, List.count_append, hzero, Nat.add_zero]
  have hreleased : ∀ r, w'.log.countP (releasesOf r) = w.log.countP (releasesOf r) := by
    intro r
    have hzero : events.countP (releasesOf r) = 0 := by
      rw [List.countP_eq_zero]
      intro e he
      have hn := hneutral e he
      cases e with
      | released => exact hn.elim
      | _ => simp [releasesOf]
    rw [hlog, List.countP_append, hzero, Nat.add_zero]
  constructor
  case paired =>
    rw [h.nextPacket, h.nextRecord]
    exact hm.paired
  case parsed =>
    intro conn p r hmem
    rw [hlog] at hmem
    rw [h.nextRecord]
    rcases List.mem_append.mp hmem with hold | hnew
    · exact hm.parsed conn p r hold
    · exact (hneutral _ hnew).elim
  case data =>
    intro r hr
    rw [h.records]
    exact hm.data r ((h.live r).mp hr)
  case deleted =>
    intro r hr
    rw [hdeleted]
    exact hm.deleted r ((h.gone r).mp hr)
  case released =>
    intro r hr
    rw [hreleased]
    exact hm.released r ((h.gone r).mp hr)
  case kept =>
    intro r hr
    rw [hdeleted, hreleased]
    exact hm.kept r fun hgone => hr ((h.gone r).mpr hgone)
  case allocator =>
    intro r a hmem
    rw [hlog] at hmem
    rcases List.mem_append.mp hmem with hold | hnew
    · exact hm.allocator r a hold
    · exact (hneutral _ hnew).elim

/-- A packet and its record are disposed of. -/
structure Disposed (w w' : Dispatch) (r : RecordPtr) (a : Allocator) : Prop where
  netThreads : w'.netThreads = w.netThreads
  handleThreads : w'.handleThreads = w.handleThreads
  recvlist : w'.recvlist = w.recvlist
  nextRecord : w'.nextRecord = w.nextRecord
  nextPacket : w'.nextPacket = w.nextPacket
  self : (w'.records r).released = true
  other : ∀ q, q ≠ r → w'.records q = w.records q
  log : w'.log = w.log ++ [.deleted r, .released r a]

theorem Disposed.contents {a : Allocator} (h : Disposed w w' r a) : w'.contents = w.contents := by
  funext p
  cases p with
  | net k => simp only [Dispatch.contents, h.netThreads]
  | recvlist => simp only [Dispatch.contents, h.recvlist]
  | handlelist i => simp only [Dispatch.contents, h.handleThreads]
  | handle i => simp only [Dispatch.contents, h.handleThreads]

theorem Disposed.gone_of_ne {a : Allocator} (h : Disposed w w' r a) (hq : q ≠ r) :
    w'.Gone q ↔ w.Gone q := by
  rw [Gone, Gone, h.nextRecord, h.other q hq]

theorem Disposed.live_of_ne {a : Allocator} (h : Disposed w w' r a) (hq : q ≠ r) :
    w'.Live q ↔ w.Live q := by
  rw [Live, Live, h.nextRecord, h.other q hq]

/-- **Dispose**: a live record and its packet are released. -/
theorem dispose_ok (hm : MemoryOk server w) (hlive : w.Live r) (a : Allocator) :
    ∃ w', w.dispose r a = .ok w' ∧ Disposed w w' r a := by
  -- the packet of a live record is deleted, and then the record goes back to its allocator
  have hdata := hm.data r hlive
  simp only [dispose, read, hlive.2, Bool.false_eq_true, if_false, hdata, Option.toList_some,
    List.map_cons, List.map_nil, List.singleton_append]
  refine ⟨_, rfl, ?_⟩
  constructor
  case netThreads =>
    rfl
  case handleThreads =>
    rfl
  case recvlist =>
    rfl
  case nextRecord =>
    rfl
  case nextPacket =>
    rfl
  case self =>
    change (if r = r then _ else _ : Record).released = true
    rw [if_pos rfl]
  case other =>
    intro q hq
    exact if_neg hq
  case log =>
    rfl

theorem MemoryOk.disposed (hm : MemoryOk server w) (hlive : w.Live r)
    (h : Disposed w w' r (recordAllocator server)) : MemoryOk server w' := by
  obtain ⟨hdeleted, hreleased⟩ := hm.kept r (not_gone_of_live hlive)
  -- the two events at the end of the log are about `r` only
  have hcount : ∀ q, w'.log.count (.deleted q) =
      w.log.count (.deleted q) + if r = q then 1 else 0 := by
    intro q
    rw [h.log, List.count_append]
    by_cases hq : r = q
    · subst hq
      simp
    · simp [hq]
  have hcountP : ∀ q, w'.log.countP (releasesOf q) =
      w.log.countP (releasesOf q) + if r = q then 1 else 0 := by
    intro q
    rw [h.log, List.countP_append]
    by_cases hq : r = q
    · subst hq
      simp [releasesOf]
    · simp [releasesOf, hq]
  constructor
  case paired =>
    rw [h.nextPacket, h.nextRecord]
    exact hm.paired
  case parsed =>
    intro conn p q hmem
    rw [h.log] at hmem
    rw [h.nextRecord]
    rcases List.mem_append.mp hmem with hold | hnew
    · exact hm.parsed conn p q hold
    · simp at hnew
  case data =>
    intro q hq
    -- `r` itself is not live any more
    have hne : q ≠ r := by
      rintro rfl
      have hsame := h.self.symm.trans hq.2
      cases hsame
    rw [h.other q hne]
    exact hm.data q ((h.live_of_ne hne).mp hq)
  case deleted =>
    intro q hq
    rw [hcount]
    by_cases hqr : r = q
    · subst hqr
      rw [hdeleted, if_pos rfl]
    · rw [if_neg hqr]
      exact hm.deleted q ((h.gone_of_ne (Ne.symm hqr)).mp hq)
  case released =>
    intro q hq
    rw [hcountP]
    by_cases hqr : r = q
    · subst hqr
      rw [hreleased, if_pos rfl]
    · rw [if_neg hqr]
      exact hm.released q ((h.gone_of_ne (Ne.symm hqr)).mp hq)
  case kept =>
    intro q hq
    -- `r` is gone now, so `q` is another record
    have hqr : r ≠ q := by
      rintro rfl
      exact hq ⟨h.nextRecord ▸ hlive.1, h.self⟩
    rw [hcount, hcountP, if_neg hqr]
    exact hm.kept q fun hgone => hq ((h.gone_of_ne (Ne.symm hqr)).mpr hgone)
  case allocator =>
    intro q a hmem
    rw [h.log] at hmem
    rcases List.mem_append.mp hmem with hold | hnew
    · exact hm.allocator q a hold
    · simp only [List.mem_cons, reduceCtorEq, DispatchEvent.released.injEq, List.not_mem_nil,
        or_false, false_or] at hnew
      exact hnew.2

/-- A packet is parsed and a record made for it. -/
theorem MemoryOk.parse (hm : MemoryOk server w) (k : Nat) (conn : ConnectorPtr) (extdata : ExtData) :
    MemoryOk server (Dispatch.parse server w k conn true extdata) := by
  -- the new state enters the proof through these five equations only
  have hself : (Dispatch.parse server w k conn true extdata).records w.nextRecord =
      ⟨⟨(server.connector conn).id, some w.nextPacket, (server.connector conn).ip,
        (server.connector conn).port, (server.connector conn).connectFd, extdata⟩, false, conn⟩ :=
    if_pos rfl
  have hother : ∀ q, q ≠ w.nextRecord →
      (Dispatch.parse server w k conn true extdata).records q = w.records q := fun q hq => if_neg hq
  have hlog : (Dispatch.parse server w k conn true extdata).log =
      w.log ++ [.parsed conn w.nextPacket w.nextRecord] := rfl
  have hnext : (Dispatch.parse server w k conn true extdata).nextRecord = w.nextRecord + 1 := rfl
  have hpacket : (Dispatch.parse server w k conn true extdata).nextPacket = w.nextPacket + 1 := rfl
  generalize Dispatch.parse server w k conn true extdata = w' at *
  -- the new record is there, and no other record changes
  have hgone : ∀ q, w'.Gone q ↔ w.Gone q := by
    intro q
    by_cases hq : q = w.nextRecord
    · subst hq
      rw [Gone, Gone, hself]
      simp
    · rw [Gone, Gone, hother q hq, hnext]
      refine and_congr_left fun _ => ⟨fun hlt => ?_, fun hlt => Nat.lt_succ_of_lt hlt⟩
      exact Nat.lt_of_le_of_ne (Nat.le_of_lt_succ hlt) hq
  constructor
  case paired =>
    rw [hpacket, hnext, hm.paired]
  case parsed =>
    intro conn' p q hmem
    rw [hlog] at hmem
    rw [hnext]
    rcases List.mem_append.mp hmem with hold | hnew
    · obtain ⟨hp, hq⟩ := hm.parsed conn' p q hold
      exact ⟨hp, Nat.lt_succ_of_lt hq⟩
    · cases List.mem_singleton.mp hnew
      exact ⟨hm.paired, Nat.lt_succ_self _⟩
  case data =>
    intro q hq
    -- the new packet has the number of the new record
    by_cases hqn : q = w.nextRecord
    · subst hqn
      rw [hself]
      exact congrArg some hm.paired
    · rw [hother q hqn]
      refine hm.data q ⟨?_, ?_⟩
      · have hlt : q < w.nextRecord + 1 := hnext ▸ hq.1
        exact Nat.lt_of_le_of_ne (Nat.le_of_lt_succ hlt) hqn
      · rw [← hother q hqn]
        exact hq.2
  case deleted =>
    intro q hq
    rw [hlog, List.count_append, hm.deleted q ((hgone q).mp hq)]
    simp
  case released =>
    intro q hq
    rw [hlog, List.countP_append, hm.released q ((hgone q).mp hq)]
    simp [releasesOf]
  case kept =>
    intro q hq
    obtain ⟨hdeleted, hreleased⟩ := hm.kept q fun h => hq ((hgone q).mpr h)
    rw [hlog, List.count_append, List.countP_append, hdeleted, hreleased]
    simp [releasesOf]
  case allocator =>
    intro q a hmem
    rw [hlog] at hmem
    rcases List.mem_append.mp hmem with hold | hnew
    · exact hm.allocator q a hold
    · simp at hnew

/-! ## The invariant -/

/-- What was handled or refused is released, unless a thread is still at it. -/
structure SettledOk (server : DispatchServer) (w : Dispatch) : Prop where
  handled : ∀ i conn r, .handled i conn r ∈ w.log →
    w.Gone r ∨ (w.handleThreads i).pc = .cleaning r
  refused : ∀ r, .refused r ∈ w.log → w.Gone r ∨ ∃ k conn, w.netThreads k = .failed conn r
  /-- `ParseImp` deletes only what was made by `new` -/
  failed : ∀ k conn r, w.netThreads k = .failed conn r → recordAllocator server = .heap

/-- Every record that is there has one place, and memory is in order. -/
structure Owned (server : DispatchServer) (w : Dispatch) : Prop where
  memory : MemoryOk server w
  distinct : Distinct w.contents
  live : ∀ p r, r ∈ w.contents p → w.Live r
  settled : SettledOk server w

/-- A record stays at its place or goes to another one. -/
theorem Owned.move (h : Owned server w) (hmemory : SameMemory w w') {r : RecordPtr} {p q : Place}
    (hmove : w'.contents = w.contents ∨ Move w.contents w'.contents p q r)
    (hsettled : SettledOk server w') : Owned server w' := by
  refine ⟨h.memory.same hmemory, ?_, ?_, hsettled⟩
  · rcases hmove with hsame | hmove
    · rw [hsame]
      exact h.distinct
    · exact h.distinct.move hmove
  · intro s x hx
    rw [hmemory.live]
    rcases hmove with hsame | hmove
    · rw [hsame] at hx
      exact h.live s x hx
    · obtain ⟨s', hs'⟩ := hmove.mem hx
      exact h.live s' x hs'

/-- A record leaves its place and is disposed of. -/
theorem Owned.release (h : Owned server w) {p : Place} (htake : Take w.contents u.contents p r)
    (hmemory : SameMemory w u) (hlog : u.log = w.log)
    (hd : Disposed u w' r (recordAllocator server))
    (hcleaning : ∀ i q, (w.handleThreads i).pc = .cleaning q →
      q = r ∨ (u.handleThreads i).pc = .cleaning q)
    (hfailed : ∀ k conn q, w.netThreads k = .failed conn q →
      q = r ∨ u.netThreads k = .failed conn q)
    (hback : ∀ k conn q, u.netThreads k = .failed conn q → w.netThreads k = .failed conn q) :
    Owned server w' := by
  have hlive : u.Live r := (hmemory.live r).mpr (h.live p r htake.mem_place)
  have hgoneSelf : w'.Gone r := ⟨hd.nextRecord ▸ hlive.1, hd.self⟩
  have hgone : ∀ q, w.Gone q → w'.Gone q := by
    intro q hq
    by_cases hqr : q = r
    · rw [hqr]
      exact hgoneSelf
    · exact (hd.gone_of_ne hqr).mpr ((hmemory.gone q).mpr hq)
  have hold : ∀ e ∈ w'.log, Neutral e → e ∈ w.log := by
    intro e he hneutral
    rw [hd.log, hlog] at he
    rcases List.mem_append.mp he with hmem | hmem
    · exact hmem
    · simp only [List.mem_cons, List.not_mem_nil, or_false] at hmem
      rcases hmem with rfl | rfl <;> exact hneutral.elim
  refine ⟨(h.memory.same hmemory).disposed hlive hd, ?_, ?_, ?_, ?_, ?_⟩
  · rw [hd.contents]
    exact h.distinct.take htake
  · intro s x hx
    rw [hd.contents] at hx
    -- `r` stood at one place only and has been taken from it
    have hne : x ≠ r := by
      rintro rfl
      exact h.distinct.gone htake s hx
    exact (hd.live_of_ne hne).mpr ((hmemory.live x).mpr (h.live s x (htake.mem hx)))
  · intro i conn q hmem
    rw [hd.handleThreads]
    -- a clean-up that was due is either the one of this step or still due
    rcases h.settled.handled i conn q (hold _ hmem trivial) with hq | hq
    · exact .inl (hgone q hq)
    · rcases hcleaning i q hq with rfl | hq
      · exact .inl hgoneSelf
      · exact .inr hq
  · intro q hmem
    rw [hd.netThreads]
    rcases h.settled.refused q (hold _ hmem trivial) with hq | ⟨k, conn, hq⟩
    · exact .inl (hgone q hq)
    · rcases hfailed k conn q hq with rfl | hq
      · exact .inl hgoneSelf
      · exact .inr ⟨k, conn, hq⟩
  · intro k conn q hq
    rw [hd.netThreads] at hq
    exact h.settled.failed k conn q (hback k conn q hq)

/-- Threads that have neither handled nor been refused anything new. -/
theorem SettledOk.same (h : SettledOk server w) (hmemory : SameMemory w w')
    (hlog : ∀ e ∈ w'.log, e ∈ w.log ∨ ∃ thread conn r, e = .inserted thread conn r)
    (hcleaning : ∀ i q, (w.handleThreads i).pc = .cleaning q → (w'.handleThreads i).pc = .cleaning q)
    (hfailed : ∀ k conn q, w'.netThreads k = .failed conn q ↔ w.netThreads k = .failed conn q) :
    SettledOk server w' := by
  constructor
  case handled =>
    intro i conn q hmem
    rcases hlog _ hmem with hold | ⟨_, _, _, hnew⟩
    · exact (h.handled i conn q hold).imp (hmemory.gone q).mpr (hcleaning i q)
    · cases hnew
  case refused =>
    intro q hmem
    rcases hlog _ hmem with hold | ⟨_, _, _, hnew⟩
    · refine (h.refused q hold).imp (hmemory.gone q).mpr ?_
      rintro ⟨k, conn, hq⟩
      exact ⟨k, conn, (hfailed k conn q).mpr hq⟩
    · cases hnew
  case failed =>
    intro k conn q hq
    exact h.failed k conn q ((hfailed k conn q).mp hq)

/-! ## Steps of a net thread -/

/-- The index of the handle thread for a record. -/
def targetOf (server : DispatchServer) (w : Dispatch) (r : RecordPtr) : Nat :=
  ((w.records r).value.fd.tmod server.handleNum).toNat

/-- There is a handle thread for the record, and it has not been deleted. -/
def HasThread (server : DispatchServer) (w : Dispatch) (r : RecordPtr) : Prop :=
  server.handleNum ≠ 0 ∧ (w.handleThreads (targetOf server w r)).pc ≠ .deleted ∧
    (w.handleThreads (targetOf server w r)).pc ≠ .null

theorem handleThreadOf_ok (hlive : w.Live r) (h : HasThread server w r) :
    handleThreadOf server w r = .ok (targetOf server w r, w.handleThreads (targetOf server w r)) := by
  obtain ⟨hnum, hdeleted, hnull⟩ := h
  have hthread : w.handleThread (targetOf server w r) =
      .ok (w.handleThreads (targetOf server w r)) := by
    unfold handleThread
    -- a thread that is `NULL` or deleted is excluded by the hypothesis
    split
    · rename_i hpc
      exact absurd hpc hnull
    · rename_i hpc
      exact absurd hpc hdeleted
    · rfl
  have hread : w.read r = .ok (w.records r).value := by
    rw [Dispatch.read, hlive.2]
    rfl
  have hselected : selectedHandle server (w.records r).value.fd = .ok (targetOf server w r) :=
    if_neg hnum
  simp only [handleThreadOf, hread, hselected, hthread, bind, Except.bind]

/-- The condition under which the clean-ups agree with each other: `push_back` finds room (in run
mode 1 it may fail if records are not from the memory pool), the handle thread for a record has
not been deleted, and its destructor finds records only if they are not from the memory pool. -/
def Careful (server : DispatchServer) (w : Dispatch) : DispatchAction → Prop
  | .net k =>
    match w.netThreads k with
    | .testing _ r =>
      if server.runMode = 1 then server.useMemoryPool = true → w.recvlist.isFull = false
      else HasThread server w r ∧
        (w.handleThreads (targetOf server w r)).handlelist.isFull = false
    | .inserting _ r => server.runMode ≠ 1 → HasThread server w r
    | _ => True
  | .stop i =>
    (w.handleThreads i).pc = .draining → (w.handleThreads i).handlelist.queue ≠ [] →
      server.useMemoryPool = false
  | _ => True

/-- A net thread goes to a place in `ParseImp` where it has the same records. -/
theorem Owned.setNet (h : Owned server w) {pc : ParsePc}
    (hrecords : pc.records = (w.netThreads k).records)
    (hfrom : ∀ conn r, w.netThreads k ≠ .failed conn r) (hto : ∀ conn r, pc ≠ .failed conn r) :
    Owned server (w.setNet k pc) := by
  have hmemory : SameMemory w (w.setNet k pc) := .of_eq rfl rfl rfl rfl
  refine h.move (p := .net k) (q := .recvlist) (r := 0) hmemory (.inl ?_)
    (h.settled.same hmemory (fun _ he => .inl he) (fun _ _ hq => hq) ?_)
  · funext q
    rw [contents_setNet]
    split
    · rename_i hq
      rw [hq, hrecords]
      rfl
    · rfl
  · intro j conn q
    change (if j = k then pc else w.netThreads j) = _ ↔ _
    by_cases hj : j = k
    · subst hj
      rw [if_pos rfl]
      exact ⟨fun heq => absurd heq (hto conn q), fun heq => absurd heq (hfrom conn q)⟩
    · rw [if_neg hj]

/-- `Parse` returns a packet. -/
theorem Owned.parse (h : Owned server w) (hpc : w.netThreads k = .parsing conn) (extdata : ExtData) :
    Owned server (Dispatch.parse server w k conn true extdata) := by
  -- the number of the new record has not been given out
  have hfresh : ∀ p, w.nextRecord ∉ w.contents p := by
    intro p hp
    exact Nat.lt_irrefl _ (h.live p _ hp).1
  have hput : Put w.contents (Dispatch.parse server w k conn true extdata).contents (.net k)
      w.nextRecord := by
    have hcontents : ∀ q, (Dispatch.parse server w k conn true extdata).contents q =
        if q = .net k then [w.nextRecord] else w.contents q := by
      intro q
      simp only [Dispatch.parse, if_true, contents_emit, contents_setNet, contents_setRecord]
      rfl
    constructor
    · rw [hcontents, if_pos rfl]
      have hnone : w.contents (.net k) = [] := by
        simp only [contents, hpc]
        rfl
      rw [hnone]
    · intro q hq
      rw [hcontents, if_neg hq]
  refine ⟨h.memory.parse k conn extdata, h.distinct.put hfresh hput, ?_, ?_⟩
  · intro p x hx
    rcases hput.mem hx with hold | ⟨rfl, -⟩
    · obtain ⟨hlt, hreleased⟩ := h.live p x hold
      refine ⟨Nat.lt_succ_of_lt hlt, ?_⟩
      change (if x = w.nextRecord then _ else w.records x : Record).released = false
      rw [if_neg (Nat.ne_of_lt hlt)]
      exact hreleased
    · refine ⟨Nat.lt_succ_self _, ?_⟩
      change (if w.nextRecord = w.nextRecord then _ else _ : Record).released = false
      rw [if_pos rfl]
  · have hgone : ∀ q, w.Gone q → (Dispatch.parse server w k conn true extdata).Gone q := by
      rintro q ⟨hlt, hreleased⟩
      refine ⟨Nat.lt_succ_of_lt hlt, ?_⟩
      change (if q = w.nextRecord then _ else w.records q : Record).released = true
      rw [if_neg (Nat.ne_of_lt hlt)]
      exact hreleased
    have hold : ∀ e ∈ (Dispatch.parse server w k conn true extdata).log, Neutral e → e ∈ w.log := by
      intro e he hneutral
      rcases List.mem_append.mp he with hmem | hmem
      · exact hmem
      · cases List.mem_singleton.mp hmem
        exact hneutral.elim
    have hnet : ∀ j conn' q, (Dispatch.parse server w k conn true extdata).netThreads j =
        .failed conn' q ↔ w.netThreads j = .failed conn' q := by
      intro j conn' q
      change (if j = k then ParsePc.testing conn w.nextRecord else w.netThreads j) = _ ↔ _
      by_cases hj : j = k
      · subst hj
        simp [hpc]
      · rw [if_neg hj]
    constructor
    case handled =>
      exact fun i conn q hmem =>
        (h.settled.handled i conn q (hold _ hmem trivial)).imp_left (hgone q)
    case refused =>
      intro q hmem
      refine (h.settled.refused q (hold _ hmem trivial)).imp (hgone q) ?_
      rintro ⟨j, conn', hq⟩
      exact ⟨j, conn', (hnet j conn' q).mpr hq⟩
    case failed =>
      exact fun j conn' q hq => h.settled.failed j conn' q ((hnet j conn' q).mp hq)

/-- The record in a net thread's hand is there. -/
theorem Owned.live_net (h : Owned server w) (hr : r ∈ (w.netThreads k).records) : w.Live r :=
  h.live (.net k) r hr

/-- `push_back` finds the queue full: only in run mode 1, and without the memory pool. -/
theorem Owned.refuse (h : Owned server w) (hpc : w.netThreads k = .testing conn r)
    (hheap : recordAllocator server = .heap) :
    Owned server ((w.setNet k (.failed conn r)).emit [.refused r]) := by
  have hmemory : SameMemory w ((w.setNet k (.failed conn r)).emit [.refused r]) :=
    .of_event (e := .refused r) trivial rfl rfl rfl rfl
  have hnet : ∀ j, j ≠ k →
      ((w.setNet k (.failed conn r)).emit [.refused r]).netThreads j = w.netThreads j :=
    fun j hj => if_neg hj
  have hself : ((w.setNet k (.failed conn r)).emit [.refused r]).netThreads k = .failed conn r :=
    if_pos rfl
  -- the record stays in the hand of the net thread, so nothing moves
  refine h.move (p := .net k) (q := .recvlist) (r := r) hmemory (.inl ?_) ?_
  · funext q
    rw [contents_emit, contents_setNet]
    split
    · rename_i hq
      rw [hq]
      simp only [contents, hpc]
      rfl
    · rfl
  · constructor
    case handled =>
      intro i conn' q hmem
      rcases List.mem_append.mp hmem with hold | hnew
      · exact h.settled.handled i conn' q hold
      · cases List.mem_singleton.mp hnew
    case refused =>
      intro q hmem
      rcases List.mem_append.mp hmem with hold | hnew
      · refine (h.settled.refused q hold).imp_right ?_
        rintro ⟨j, conn', hq⟩
        refine ⟨j, conn', (hnet j ?_).trans hq⟩
        -- a record refused before and not disposed of is in another thread's hand
        rintro rfl
        rw [hpc] at hq
        cases hq
      · cases List.mem_singleton.mp hnew
        -- this one is in the hand of the thread that has failed
        exact .inr ⟨k, conn, hself⟩
    case failed =>
      exact fun _ _ _ _ => hheap

theorem Owned.testQueue (h : Owned server w) (hpc : w.netThreads k = .testing conn r)
    (hcareful : Careful server w (.net k)) :
    ∃ w', Dispatch.testQueue server w k conn r = .ok w' ∧ Owned server w' := by
  simp only [Careful, hpc] at hcareful
  have hgoOn : Owned server (w.setNet k (.inserting conn r)) := by
    refine h.setNet ?_ ?_ ?_
    · rw [hpc]
      rfl
    · rw [hpc]
      exact fun _ _ heq => nomatch heq
    · exact fun _ _ heq => nomatch heq
  unfold Dispatch.testQueue
  by_cases hmode : server.runMode = 1
  -- the queue all handle threads share
  · rw [if_pos hmode] at hcareful ⊢
    by_cases hfull : w.recvlist.isFull = true
    · rw [if_pos hfull]
      refine ⟨_, rfl, h.refuse hpc ?_⟩
      -- with the memory pool there was room
      have hpool : server.useMemoryPool = false := by
        by_contra hpool
        rw [hcareful (Bool.not_eq_false _ ▸ hpool)] at hfull
        cases hfull
      rw [recordAllocator, hpool]
      rfl
    · rw [if_neg hfull]
      exact ⟨_, rfl, hgoOn⟩
  -- the list of one handle thread, which the condition says has room
  · rw [if_neg hmode] at hcareful ⊢
    obtain ⟨hthread, hroom⟩ := hcareful
    have hlive : w.Live r := h.live_net (by rw [hpc]; exact List.mem_singleton_self _)
    rw [handleThreadOf_ok hlive hthread]
    simp only [hroom, Bool.false_eq_true, if_false]
    exact ⟨_, rfl, hgoOn⟩

/-- The record goes into a queue. -/
theorem Owned.insertRecord (h : Owned server w) (hpc : w.netThreads k = .inserting conn r)
    (hcareful : Careful server w (.net k)) :
    ∃ w', Dispatch.insertRecord server w k conn r = .ok w' ∧ Owned server w' := by
  simp only [Careful, hpc] at hcareful
  -- this thread goes from `inserting` to `parsing`, so none enters or leaves `failed`
  have hfailed : ∀ w' : Dispatch, (∀ j, j ≠ k → w'.netThreads j = w.netThreads j) →
      w'.netThreads k = .parsing conn → ∀ j conn' q, w'.netThreads j = .failed conn' q ↔
        w.netThreads j = .failed conn' q := by
    intro w' hother hself j conn' q
    by_cases hj : j = k
    · subst hj
      rw [hself, hpc]
      exact ⟨fun heq => (nomatch heq), fun heq => nomatch heq⟩
    · rw [hother j hj]
  have hnew : ∀ thread : Option Nat, ∀ e ∈ w.log ++ [.inserted thread conn r],
      e ∈ w.log ∨ ∃ thread conn r, e = .inserted thread conn r := by
    intro thread e he
    rcases List.mem_append.mp he with hold | hnew
    · exact .inl hold
    · exact .inr ⟨thread, conn, r, List.mem_singleton.mp hnew⟩
  have hhand : w.contents (.net k) = [r] := by
    simp only [contents, hpc]
    rfl
  unfold Dispatch.insertRecord
  by_cases hmode : server.runMode = 1
  -- from the hand of the net thread to `recvlist`
  · rw [if_pos hmode]
    refine ⟨_, rfl, ?_⟩
    have hmemory : SameMemory w (({ w with recvlist := w.recvlist.pushLocked r }.setNet k
        (.parsing conn)).emit [.inserted none conn r]) :=
      .of_event (e := .inserted none conn r) trivial rfl rfl rfl rfl
    refine h.move (p := .net k) (q := .recvlist) (r := r) hmemory (.inr ?_)
      (h.settled.same hmemory (hnew none) (fun _ _ hq => hq)
        (hfailed _ (fun j hj => if_neg hj) (if_pos rfl)))
    refine ⟨Place.noConfusion, ?_, ?_, ?_⟩
    · rw [hhand, contents_emit, contents_setNet, if_pos rfl]
      exact .refl _
    · rw [contents_emit, contents_setNet, if_neg Place.noConfusion]
      exact List.perm_append_singleton ..
    · intro q hq hq'
      rw [contents_emit, contents_setNet, if_neg hq]
      cases q with
      | recvlist => exact absurd rfl hq'
      | _ => rfl
  -- from the hand of the net thread to the list of the thread for its descriptor
  · rw [if_neg hmode]
    have hlive : w.Live r := h.live_net (by rw [hpc]; exact List.mem_singleton_self _)
    rw [handleThreadOf_ok hlive (hcareful hmode)]
    dsimp only
    generalize targetOf server w r = i
    refine ⟨_, rfl, ?_⟩
    have hmemory : SameMemory w (((w.setHandle i { w.handleThreads i with
        handlelist := (w.handleThreads i).handlelist.pushLocked r }).setNet k
          (.parsing conn)).emit [.inserted (some i) conn r]) :=
      .of_event (e := .inserted (some i) conn r) trivial rfl rfl rfl rfl
    refine h.move (p := .net k) (q := .handlelist i) (r := r) hmemory (.inr ?_)
      (h.settled.same hmemory (hnew (some i)) ?_
        (hfailed _ (fun j hj => if_neg hj) (if_pos rfl)))
    · refine ⟨Place.noConfusion, ?_, ?_, ?_⟩
      · rw [hhand, contents_emit, contents_setNet, if_pos rfl]
        exact .refl _
      · rw [contents_emit, contents_setNet, if_neg Place.noConfusion, contents_setHandle, if_pos rfl]
        exact List.perm_append_singleton ..
      · intro q hq hq'
        rw [contents_emit, contents_setNet, if_neg hq, contents_setHandle, if_neg hq']
        split
        · rename_i heq
          rw [heq]
          rfl
        · rfl
    · intro j q hq
      change (if j = i then _ else w.handleThreads j : HandleThread).pc = _
      by_cases hj : j = i
      · subst hj
        rw [if_pos rfl]
        exact hq
      · rw [if_neg hj]
        exact hq

/-- The clean-up of `ParseImp`. -/
theorem Owned.parseImp_disposes (h : Owned server w) (hpc : w.netThreads k = .failed conn r) :
    ∃ w', (w.setNet k (.parsing conn)).dispose r .heap = .ok w' ∧ Owned server w' := by
  have hmemory : SameMemory w (w.setNet k (.parsing conn)) := .of_eq rfl rfl rfl rfl
  -- what a thread holds is live, so that it can be disposed of
  have hlive : w.Live r := h.live_net (by rw [hpc]; exact List.mem_singleton_self _)
  have htake : Take w.contents (w.setNet k (.parsing conn)).contents (.net k) r := by
    constructor
    · rw [contents_setNet, if_pos rfl]
      simp only [contents, hpc]
      exact .refl _
    · intro q hq
      rw [contents_setNet, if_neg hq]
  obtain ⟨w', hok, hd⟩ := dispose_ok (h.memory.same hmemory) ((hmemory.live r).mpr hlive) .heap
  -- only records from the heap are refused, and `ParseImp` deletes them as such
  rw [← h.settled.failed k conn r hpc] at hd
  refine ⟨w', hok, h.release htake hmemory rfl hd (fun _ _ hq => .inr hq) ?_ ?_⟩
  -- the record this thread had failed to insert is the one released here
  · intro j conn' q hq
    by_cases hj : j = k
    · subst hj
      rw [hpc] at hq
      cases hq
      exact .inl rfl
    · exact .inr ((if_neg hj).trans hq)
  · intro j conn' q hq
    by_cases hj : j = k
    · subst hj
      have hparsing : ParsePc.parsing conn = .failed conn' q := (if_pos rfl).symm.trans hq
      cases hparsing
    · exact (if_neg hj).symm.trans hq

/-! ## Steps of a handle thread -/

theorem handleThreads_self (w : Dispatch) (i : Nat) (t : HandleThread) :
    (w.setHandle i t).handleThreads i = t := if_pos rfl

theorem handleThreads_ne {j : Nat} (w : Dispatch) {t : HandleThread} (h : j ≠ i) :
    (w.setHandle i t).handleThreads j = w.handleThreads j := if_neg h

/-- What was being cleaned up still is after a change of one handle thread. -/
theorem cleaning_setHandle {t : HandleThread}
    (h : ∀ q, (w.handleThreads i).pc = .cleaning q → t.pc = .cleaning q) (j : Nat) (q : RecordPtr)
    (hq : (w.handleThreads j).pc = .cleaning q) :
    ((w.setHandle i t).handleThreads j).pc = .cleaning q := by
  by_cases hj : j = i
  · subst hj
    rw [handleThreads_self]
    exact h q hq
  · rw [handleThreads_ne w hj]
    exact hq

/-- A handle thread changes, and has the same records. -/
theorem Owned.setHandle (h : Owned server w) {t : HandleThread}
    (hlist : t.handlelist.queue = (w.handleThreads i).handlelist.queue)
    (hrecords : t.pc.records = (w.handleThreads i).pc.records)
    (hcleaning : ∀ q, (w.handleThreads i).pc = .cleaning q → t.pc = .cleaning q) :
    Owned server (w.setHandle i t) := by
  have hmemory : SameMemory w (w.setHandle i t) := .of_eq rfl rfl rfl rfl
  refine h.move (p := .handle i) (q := .recvlist) (r := 0) hmemory (.inl ?_)
    (h.settled.same hmemory (fun _ he => .inl he) (cleaning_setHandle hcleaning)
      fun _ _ _ => Iff.rfl)
  funext q
  rw [contents_setHandle]
  split
  · rename_i hq
    rw [hq, hlist]
    rfl
  · split
    · rename_i hq
      rw [hq, hrecords]
      rfl
    · rfl

/-- The head of the loop of `handleImp`. -/
theorem Owned.takeRecord (h : Owned server w) (hpc : (w.handleThreads i).pc = .looping) :
    ∃ w', Dispatch.takeRecord server w i = .ok w' ∧ Owned server w' := by
  -- at the head of the loop the thread holds no record
  have hhand : w.contents (.handle i) = [] := by
    simp only [contents, hpc]
    rfl
  have hnot : ∀ pc : HandlePc, ∀ q, (w.handleThreads i).pc = .cleaning q → pc = .cleaning q := by
    intro pc q hq
    rw [hpc] at hq
    cases hq
  unfold Dispatch.takeRecord
  dsimp only
  split
  -- the next record is from `recvlist` in run mode 1, else from the own list
  · split
    · rcases w.recvlist.popFront_spec with ⟨-, hpop⟩ | ⟨r, rest, hpop, hqueue, -⟩
      · rw [hpop]
        exact ⟨w, rfl, h⟩
      · rw [hpop]
        refine ⟨_, rfl, ?_⟩
        have hmemory : SameMemory w ({ w with recvlist := rest }.setHandle i
            { w.handleThreads i with pc := .handling r }) := .of_eq rfl rfl rfl rfl
        -- from the common list to the hand
        refine h.move (p := .recvlist) (q := .handle i) (r := r) hmemory (.inr ?_)
          (h.settled.same hmemory (fun _ he => .inl he) (cleaning_setHandle (hnot _))
            fun _ _ _ => Iff.rfl)
        refine ⟨Place.noConfusion, ?_, ?_, ?_⟩
        · rw [contents_setHandle, if_neg Place.noConfusion, if_neg Place.noConfusion]
          exact .of_eq hqueue
        · rw [contents_setHandle, if_neg Place.noConfusion, if_pos rfl, hhand]
          exact .refl _
        · intro q hq hq'
          rw [contents_setHandle, if_neg hq']
          cases q with
          | recvlist => exact absurd rfl hq
          | handlelist j =>
            split
            · rename_i heq
              cases heq
              rfl
            · rfl
          | _ => rw [if_neg Place.noConfusion]; rfl
    · rcases (w.handleThreads i).handlelist.popFront_spec with ⟨-, hpop⟩ | ⟨r, rest, hpop, hqueue, -⟩
      · rw [hpop]
        exact ⟨w, rfl, h⟩
      · rw [hpop]
        refine ⟨_, rfl, ?_⟩
        have hmemory : SameMemory w (w.setHandle i
            { w.handleThreads i with handlelist := rest, pc := .handling r }) :=
          .of_eq rfl rfl rfl rfl
        -- from the own list to the hand
        refine h.move (p := .handlelist i) (q := .handle i) (r := r) hmemory (.inr ?_)
          (h.settled.same hmemory (fun _ he => .inl he) (cleaning_setHandle (hnot _))
            fun _ _ _ => Iff.rfl)
        refine ⟨Place.noConfusion, ?_, ?_, ?_⟩
        · rw [contents_setHandle, if_pos rfl]
          exact .of_eq hqueue
        · rw [contents_setHandle, if_neg Place.noConfusion, if_pos rfl, hhand]
          exact .refl _
        · intro q hq hq'
          rw [contents_setHandle, if_neg hq, if_neg hq']
  -- the server is stopping and the loop ends
  · refine ⟨_, rfl, h.setHandle rfl ?_ (hnot _)⟩
    rw [hpc]
    rfl

/-- The clean-up of a record that has left its place beside a handle thread. -/
theorem Owned.handle_disposes {t : HandleThread} (h : Owned server w) {p : Place} {a : Allocator}
    (htake : Take w.contents (w.setHandle i t).contents p r) (ha : a = recordAllocator server)
    (hcleaning : ∀ q, (w.handleThreads i).pc = .cleaning q → q = r) :
    ∃ w', (w.setHandle i t).dispose r a = .ok w' ∧ Owned server w' := by
  have hmemory : SameMemory w (w.setHandle i t) := .of_eq rfl rfl rfl rfl
  have hlive := (hmemory.live r).mpr (h.live p r htake.mem_place)
  obtain ⟨w', hok, hd⟩ := dispose_ok (h.memory.same hmemory) hlive a
  subst ha
  refine ⟨w', hok, h.release htake hmemory rfl hd ?_ (fun _ _ _ hq => .inr hq) fun _ _ _ hq => hq⟩
  intro j q hq
  by_cases hj : j = i
  · subst hj
    exact .inl (hcleaning q hq)
  · right
    rw [handleThreads_ne w hj]
    exact hq

theorem Owned.handleStep (h : Owned server w) (i : Nat) :
    ∃ w', Dispatch.handleStep server w i = .ok w' ∧ Owned server w' := by
  unfold Dispatch.handleStep
  dsimp only
  split
  -- the head of the loop
  · rename_i hpc
    exact h.takeRecord hpc
  -- `handleImp` calls the handler, and the record stays in the thread's hand
  · rename_i r hpc
    have hlive : w.Live r := h.live (.handle i) r (by
      simp only [contents, hpc]
      exact List.mem_singleton_self _)
    rw [Dispatch.read, hlive.2]
    refine ⟨_, rfl, ?_⟩
    have hmemory : SameMemory w ((w.setHandle i { w.handleThreads i with pc := .cleaning r }).emit
        [.handled i (w.records r).conn r]) :=
      .of_event (e := .handled i (w.records r).conn r) trivial rfl rfl rfl rfl
    -- the record stays where it is, and is handled
    refine h.move (p := .handle i) (q := .recvlist) (r := r) hmemory (.inl ?_) ?_
    · funext q
      rw [contents_emit, contents_setHandle]
      split
      · rename_i hq
        rw [hq]
        rfl
      · split
        · rename_i hq
          rw [hq]
          simp only [contents, hpc]
          rfl
        · rfl
    · have hnot : ∀ q, (w.handleThreads i).pc = .cleaning q → HandlePc.cleaning r = .cleaning q := by
        intro q hq
        rw [hpc] at hq
        cases hq
      constructor
      case handled =>
        intro j conn q hmem
        rcases List.mem_append.mp hmem with hold | hnew
        · exact (h.settled.handled j conn q hold).imp_right (cleaning_setHandle hnot j q)
        -- the record that is handled now is cleaned up next
        · cases List.mem_singleton.mp hnew
          right
          change ((w.setHandle i _).handleThreads i).pc = _
          rw [handleThreads_self]
      case refused =>
        intro q hmem
        rcases List.mem_append.mp hmem with hold | hnew
        · exact h.settled.refused q hold
        · cases List.mem_singleton.mp hnew
      case failed =>
        exact h.settled.failed
  -- the clean-up takes the record out of the hand
  · rename_i r hpc
    have htake : Take w.contents
        (w.setHandle i { w.handleThreads i with pc := .looping }).contents (.handle i) r := by
      constructor
      · rw [contents_setHandle, if_neg Place.noConfusion, if_pos rfl]
        simp only [contents, hpc]
        exact .refl _
      · intro q hq
        rw [contents_setHandle, if_neg hq]
        split
        · rename_i heq
          rw [heq]
          rfl
        · rfl
    refine h.handle_disposes htake rfl ?_
    intro q hq
    rw [hpc] at hq
    cases hq
    rfl
  · exact ⟨w, rfl, h⟩

/-- A step of `StopHandleThread`. -/
theorem Owned.stopStep (h : Owned server w) (hcareful : Careful server w (.stop i)) :
    ∃ w', Dispatch.stopStep w i = .ok w' ∧ Owned server w' := by
  unfold Dispatch.stopStep
  dsimp only
  split
  · exact ⟨_, rfl, h.setHandle rfl rfl fun _ hq => hq⟩
  · split
    · rename_i hpc
      refine ⟨_, rfl, h.setHandle rfl (by rw [hpc]; rfl) ?_⟩
      rw [hpc]
      exact fun _ hq => nomatch hq
    -- the destructor empties the list of the thread
    · rename_i hpc
      rcases (w.handleThreads i).handlelist.popFront_spec with ⟨-, hpop⟩ | ⟨r, rest, hpop, hqueue, -⟩
      · rw [hpop]
        refine ⟨_, rfl, h.setHandle rfl (by rw [hpc]; rfl) ?_⟩
        rw [hpc]
        exact fun _ hq => nomatch hq
      · rw [hpop]
        -- the destructor deletes it, so it has to be from `new`
        have hpool : server.useMemoryPool = false := by
          apply hcareful hpc
          rw [hqueue]
          exact List.cons_ne_nil _ _
        have ha : Allocator.heap = recordAllocator server := by
          rw [recordAllocator, hpool]
          rfl
        refine h.handle_disposes (p := .handlelist i) ?_ ha ?_
        · constructor
          · rw [contents_setHandle, if_pos rfl]
            exact .of_eq hqueue
          · intro q hq
            rw [contents_setHandle, if_neg hq]
            split
            · rename_i heq
              rw [heq]
              rfl
            · rfl
        · rw [hpc]
          exact fun _ hq => nomatch hq
    · rename_i hpc
      refine ⟨_, rfl, h.setHandle rfl (by rw [hpc]; rfl) ?_⟩
      rw [hpc]
      exact fun _ hq => nomatch hq
    · exact ⟨w, rfl, h⟩

/-- **Step**: a careful step does not fail and keeps everything owned. -/
theorem Owned.step (h : Owned server w) {act : DispatchAction} (hcareful : Careful server w act) :
    ∃ w', dispatchStep server w act = .ok w' ∧ Owned server w' := by
  -- one case for each action; what it finds at another place does nothing
  cases act with
  | parseImp conn =>
    simp only [dispatchStep]
    split
    · rename_i hpc
      refine ⟨_, rfl, h.setNet (by rw [hpc]; rfl) ?_ ?_⟩
      · rw [hpc]
        exact fun _ _ heq => nomatch heq
      · exact fun _ _ heq => nomatch heq
    · exact ⟨w, rfl, h⟩
  | parse k found extdata =>
    simp only [dispatchStep]
    split
    · rename_i conn hpc
      refine ⟨_, rfl, ?_⟩
      cases found with
      | true => exact h.parse hpc extdata
      | false =>
        refine h.setNet (by rw [hpc]; rfl) ?_ ?_
        · rw [hpc]
          exact fun _ _ heq => nomatch heq
        · exact fun _ _ heq => nomatch heq
    · exact ⟨w, rfl, h⟩
  | net k =>
    simp only [dispatchStep, netStep]
    split
    · rename_i hpc
      -- the condition on the step is that of the branch it takes
      exact h.testQueue hpc hcareful
    · rename_i hpc
      exact h.insertRecord hpc hcareful
    · rename_i hpc
      exact h.parseImp_disposes hpc
    · exact ⟨w, rfl, h⟩
  | handle i =>
    simp only [dispatchStep]
    split
    · exact h.handleStep i
    · exact ⟨w, rfl, h⟩
  | stop i =>
    simp only [dispatchStep]
    split
    · exact h.stopStep hcareful
    · exact ⟨w, rfl, h⟩

/-! ## Whole runs -/

/-- What holds of packets and records when no clean-up has gone wrong. -/
structure ReleasedOnce (server : DispatchServer) (w : Dispatch) : Prop where
  packet : ∀ p, w.log.count (.deleted p) ≤ 1
  record : ∀ r, w.log.countP (releasesOf r) ≤ 1
  allocator : ∀ r a, .released r a ∈ w.log → a = recordAllocator server
  /-- a packet that was handled is gone with its record, once the handle thread has cleaned up -/
  handled : ∀ i conn conn' p r, .parsed conn p r ∈ w.log → .handled i conn' r ∈ w.log →
    (w.handleThreads i).pc ≠ .cleaning r →
    w.log.count (.deleted p) = 1 ∧ w.log.countP (releasesOf r) = 1
  /-- and so is one that was refused, once the net thread has -/
  refused : ∀ conn p r, .parsed conn p r ∈ w.log → .refused r ∈ w.log →
    (∀ k conn, w.netThreads k ≠ .failed conn r) →
    w.log.count (.deleted p) = 1 ∧ w.log.countP (releasesOf r) = 1

theorem Owned.releasedOnce (h : Owned server w) : ReleasedOnce server w where
  packet := by
    intro p
    -- a packet that is gone was deleted once, any other never
    by_cases hp : w.Gone p
    · exact Nat.le_of_eq (h.memory.deleted p hp)
    · rw [(h.memory.kept p hp).1]
      exact Nat.zero_le _
  record := by
    intro r
    by_cases hr : w.Gone r
    · exact Nat.le_of_eq (h.memory.released r hr)
    · rw [(h.memory.kept r hr).2]
      exact Nat.zero_le _
  allocator := h.memory.allocator
  handled := by
    intro i conn conn' p r hparsed hhandled hpc
    obtain ⟨rfl, -⟩ := h.memory.parsed conn p r hparsed
    -- the thread that handled it is not about to clean it up, so it has
    have hgone := (h.settled.handled i conn' p hhandled).resolve_right hpc
    exact ⟨h.memory.deleted p hgone, h.memory.released p hgone⟩
  refused := by
    intro conn p r hparsed hrefused hpc
    obtain ⟨rfl, -⟩ := h.memory.parsed conn p r hparsed
    -- no thread is about to delete it, so it is deleted
    have hgone := (h.settled.refused p hrefused).resolve_right fun ⟨k, conn, hq⟩ => hpc k conn hq
    exact ⟨h.memory.deleted p hgone, h.memory.released p hgone⟩

theorem owned_init (server : DispatchServer) (recvMaxSize : Nat) (handleMaxSize : Nat → Nat)
    (records : RecordPtr → Record) : Owned server (init recvMaxSize handleMaxSize records) := by
  have hcontents : (init recvMaxSize handleMaxSize records).contents = fun _ => [] := by
    funext p
    cases p <;> rfl
  refine ⟨?_, ?_, ?_, ?_⟩
  · refine ⟨rfl, fun _ _ _ h => (nomatch h), ?_, ?_, ?_, fun _ _ => ⟨rfl, rfl⟩, fun _ _ h => nomatch h⟩
    · exact fun r h => absurd h.1 (Nat.not_lt_zero r)
    · exact fun r h => absurd h.1 (Nat.not_lt_zero r)
    · exact fun r h => absurd h.1 (Nat.not_lt_zero r)
  · rw [hcontents]
    exact distinct_empty
  · rw [hcontents]
    exact fun _ _ h => nomatch h
  · exact ⟨fun _ _ _ h => (nomatch h), fun _ h => (nomatch h), fun _ _ _ h => nomatch h⟩

/-- **Packets**: in every run whose steps are careful no step fails, so nothing is read after it was
released, and every packet and every record is released once at most, by the right allocator, and
has been when it was handled or refused. -/
theorem packets_released_once (server : DispatchServer) (recvMaxSize : Nat)
    (handleMaxSize : Nat → Nat) (records : RecordPtr → Record) (as : List DispatchAction)
    (hcareful : Along (dispatchStep server) (Careful server)
      (init recvMaxSize handleMaxSize records) as) :
    ∃ w, run (dispatchStep server) (init recvMaxSize handleMaxSize records) as = .ok w ∧
      ReleasedOnce server w := by
  obtain ⟨w, hrun, hok⟩ := run_ok (fun w act h hcareful => h.step hcareful)
    (owned_init server recvMaxSize handleMaxSize records) hcareful
  exact ⟨w, hrun, hok.releasedOnce⟩

/-! ## One connection -/

/-- A server with one net thread, one handle thread and a memory pool, in run mode 2. -/
def poolServer : DispatchServer where
  netThreadNum := 1
  handleNum := 1
  runMode := 2
  useMemoryPool := true
  connector := fun _ => ⟨1, ascii "1.2.3.4", 80, 9, by decide⟩

/-- Memory nobody has written to. -/
def blankRecords : RecordPtr → Record := fun _ => ⟨⟨0, none, [], 0, 0, .zero 8⟩, false, 0⟩

/-- One packet goes through a list with room for one. -/
def onePacket : List DispatchAction :=
  [.parseImp 0, .parse 0 true (.zero 8), .net 0, .net 0, .parse 0 false (.zero 8), .handle 0,
    .handle 0, .handle 0]

theorem packets_released_once_handled :
    ∃ w, run (dispatchStep poolServer) (init 1 (fun _ => 1) blankRecords) onePacket = .ok w ∧
      .handled 0 0 0 ∈ w.log ∧ ReleasedOnce poolServer w := by
  have hcareful : Along (dispatchStep poolServer) (Careful poolServer)
      (init 1 (fun _ => 1) blankRecords) onePacket := by
    refine .cons_ok trivial rfl (.cons_ok trivial rfl (.cons_ok ?_ rfl (.cons_ok ?_ rfl ?_)))
    · exact ⟨⟨by decide, fun h => (nomatch h), fun h => nomatch h⟩, rfl⟩
    · exact fun _ => ⟨by decide, fun h => (nomatch h), fun h => nomatch h⟩
    · exact .cons_ok trivial rfl (.cons_ok trivial rfl (.cons_ok trivial rfl
        (.cons_ok trivial rfl trivial)))
  obtain ⟨w, hrun, hok⟩ := packets_released_once poolServer 1 (fun _ => 1) blankRecords onePacket
    hcareful
  refine ⟨w, hrun, ?_, hok⟩
  cases hrun
  decide

/-- Two packets for a list with room for one: `addForHandle` releases the second record, and
`ParseImp` reads it. -/
theorem packet_read_after_release :
    run (dispatchStep poolServer) (init 1 (fun _ => 1) blankRecords)
      [.parseImp 0, .parse 0 true (.zero 8), .net 0, .net 0, .parse 0 true (.zero 8), .net 0,
        .net 0] = .error .dangling := rfl

end Dispatch

end Sails.Net
