import Sails.Library.Run
import Mathlib.Data.Finset.Card
import Mathlib.Data.Finset.Insert

/-!
# `base::ReadWriteLock`

Two mutexes and a counter: the first reader in locks the writers' mutex, the last reader out unlocks
it. Any number of threads make and destroy `RWLocker`s; each step of a thread is one lock, one unlock
or one change of `read_cnt`.

- `LockPc`: where a thread is in the code
- `lockStep`: the next step of a thread
- `LockOk`: what every run keeps
- `sections_exclude`: nobody is in a write section together with anybody else
- `unlocks_owned_iff`: `write_mtx` is unlocked by the thread that has locked it as long as the first
  reader in is the last one out
-/

namespace Sails.Base

open TransitionRun

abbrev ThreadId := Nat

/-- `RWLocker::LockerType`. -/
inductive LockerType where
  | read
  | write
  deriving DecidableEq, Repr

/-- Where a thread is. -/
inductive LockPc where
  | outside
  /-- `readLock`, before `read_mtx.lock()` -/
  | readLock
  /-- before `++read_cnt` -/
  | entering
  /-- before `write_mtx.lock()` -/
  | firstReader
  /-- before `read_mtx.unlock()` -/
  | entered
  /-- in the read section; `readUnlock` begins with `read_mtx.lock()` -/
  | reading
  /-- before `--read_cnt` -/
  | leaving
  /-- before `write_mtx.unlock()` -/
  | lastReader
  /-- before `read_mtx.unlock()` -/
  | left
  /-- `writeLock`, before `write_mtx.lock()` -/
  | writeLock
  /-- in the write section; `writeUnlock` is `write_mtx.unlock()` -/
  | writing
  deriving DecidableEq, Repr

/-- Which of the two mutexes. -/
inductive LockMutex where
  | readMtx
  | writeMtx
  deriving DecidableEq, Repr

/-- An unlock, and the thread that had locked the mutex. -/
structure Unlock where
  mutex : LockMutex
  thread : ThreadId
  owner : Option ThreadId
  deriving DecidableEq, Repr

/-- `ReadWriteLock` and the threads at it. -/
structure ReadWriteLock where
  /-- who has locked it -/
  readMtx : Option ThreadId
  writeMtx : Option ThreadId
  readCnt : Int
  pc : ThreadId → LockPc
  /-- the reader that has last found nobody inside; nothing reads it -/
  firstIn : Option ThreadId
  /-- nothing reads it -/
  unlocks : List Unlock

namespace ReadWriteLock

/-- The constructor. -/
def init : ReadWriteLock := ⟨none, none, 0, fun _ => .outside, none, []⟩

variable (s : ReadWriteLock) (k : ThreadId)

/-- Thread `k` is now at `pc`. -/
def goto (pc : LockPc) : ReadWriteLock :=
  { s with pc := fun j => if j = k then pc else s.pc j }

/-- `read_mtx.lock()`: thread `k` waits as long as the mutex is locked. -/
def lockRead (pc : LockPc) : ReadWriteLock :=
  if s.readMtx = none then { s with readMtx := some k }.goto k pc else s

/-- `write_mtx.lock()`. -/
def lockWrite (pc : LockPc) : ReadWriteLock :=
  if s.writeMtx = none then { s with writeMtx := some k }.goto k pc else s

/-- `read_mtx.unlock()`. -/
def unlockRead (pc : LockPc) : ReadWriteLock :=
  { s with readMtx := none, unlocks := s.unlocks ++ [Unlock.mk .readMtx k s.readMtx] }.goto k pc

/-- `write_mtx.unlock()`. -/
def unlockWrite (pc : LockPc) : ReadWriteLock :=
  { s with writeMtx := none, unlocks := s.unlocks ++ [Unlock.mk .writeMtx k s.writeMtx] }.goto k pc

/-- `if (++read_cnt == 1)`. -/
def countIn : ReadWriteLock :=
  if s.readCnt + 1 = 1 then
    { s with readCnt := s.readCnt + 1, firstIn := some k }.goto k .firstReader
  else { s with readCnt := s.readCnt + 1 }.goto k .entered

/-- `if (--read_cnt == 0)`. -/
def countOut : ReadWriteLock :=
  if s.readCnt - 1 = 0 then { s with readCnt := s.readCnt - 1 }.goto k .lastReader
  else { s with readCnt := s.readCnt - 1 }.goto k .left

/-- The next step of thread `k`. -/
def next : ReadWriteLock :=
  match s.pc k with
  | .outside => s
  | .readLock => s.lockRead k .entering
  | .entering => s.countIn k
  | .firstReader => s.lockWrite k .entered
  | .entered => s.unlockRead k .reading
  | .reading => s.lockRead k .leaving
  | .leaving => s.countOut k
  | .lastReader => s.unlockWrite k .left
  | .left => s.unlockRead k .outside
  | .writeLock => s.lockWrite k .writing
  | .writing => s.unlockWrite k .outside

/-- The constructor of `RWLocker`. -/
def begin : LockerType → ReadWriteLock
  | .read => s.goto k .readLock
  | .write => s.goto k .writeLock

end ReadWriteLock

/-- A thread makes an `RWLocker`, or goes on. -/
inductive LockAction where
  | lock (k : ThreadId) (type : LockerType)
  | step (k : ThreadId)

/-- One step. -/
def lockStep (s : ReadWriteLock) : LockAction → Except Fault ReadWriteLock
  | .lock k type => .ok (if s.pc k = .outside then s.begin k type else s)
  | .step k => .ok (s.next k)

/-! ## What every run keeps -/

/-- The thread has `read_mtx`. -/
def LockPc.hasRead : LockPc → Bool
  | .entering | .firstReader | .entered | .leaving | .lastReader | .left => true
  | _ => false

/-- `read_cnt` counts the thread. -/
def LockPc.counted : LockPc → Bool
  | .firstReader | .entered | .reading | .leaving => true
  | _ => false

/-- The thread relies on `write_mtx`, which the first reader in has locked. -/
def LockPc.shares : LockPc → Bool
  | .entered | .reading | .leaving | .lastReader => true
  | _ => false

namespace ReadWriteLock

/-- The counter is the number of the threads it counts. -/
def Counts (s : ReadWriteLock) : Prop :=
  ∃ readers : Finset ThreadId, (∀ k, k ∈ readers ↔ (s.pc k).counted) ∧ s.readCnt = readers.card

structure LockOk (s : ReadWriteLock) : Prop where
  hasRead : ∀ k, s.readMtx = some k ↔ (s.pc k).hasRead
  counts : s.Counts
  firstReader : ∀ k, s.pc k = .firstReader → s.readCnt = 1 ∧ s.firstIn = some k
  lastReader : ∀ k, s.pc k = .lastReader → s.readCnt = 0
  /-- readers share the lock of the first one in -/
  shared : ∀ k, (s.pc k).shares → s.writeMtx ≠ none ∧ s.writeMtx = s.firstIn
  writing : ∀ k, s.pc k = .writing → s.writeMtx = some k
  apart : ∀ j k, (s.pc j).shares → s.pc k ≠ .writing

variable {s s' : ReadWriteLock} {j k : ThreadId} {pc : LockPc}

theorem goto_self (s : ReadWriteLock) (k : ThreadId) (pc : LockPc) : (s.goto k pc).pc k = pc :=
  if_pos rfl

theorem goto_other (s : ReadWriteLock) (pc : LockPc) (h : j ≠ k) : (s.goto k pc).pc j = s.pc j :=
  if_neg h

/-- What is the same of the two places of a thread that moves is the same of all threads. -/
theorem goto_same (f : LockPc → Bool) (h : f pc = f (s.pc k)) (j : ThreadId) :
    f ((s.goto k pc).pc j) = f (s.pc j) := by
  by_cases hj : j = k
  · rw [hj, goto_self, h]
  · rw [goto_other s pc hj]

/-- Whoever is at a place was there before, or has just come to it. -/
theorem goto_cases {q : LockPc} (h : (s.goto k pc).pc j = q) :
    j = k ∧ pc = q ∨ j ≠ k ∧ s.pc j = q := by
  by_cases hj : j = k
  · rw [hj, goto_self] at h
    exact .inl ⟨hj, h⟩
  · rw [goto_other s pc hj] at h
    exact .inr ⟨hj, h⟩

/-- Nobody has come to place `q`. -/
theorem goto_back {q : LockPc} (hne : pc ≠ q) (h : (s.goto k pc).pc j = q) : s.pc j = q := by
  rcases goto_cases h with ⟨-, rfl⟩ | ⟨-, hq⟩
  · exact absurd rfl hne
  · exact hq

/-! ### The counter -/

/-- The thread that moves is counted before and after, or neither. -/
theorem Counts.same (h : s.Counts) (hpc : s'.pc = (s.goto k pc).pc)
    (hcounted : pc.counted = (s.pc k).counted) (hcnt : s'.readCnt = s.readCnt) : s'.Counts := by
  obtain ⟨readers, hmem, hcard⟩ := h
  refine ⟨readers, fun j => ?_, hcnt.trans hcard⟩
  rw [hpc, hmem, goto_same LockPc.counted hcounted]

/-- A thread is counted in. -/
theorem Counts.enter (h : s.Counts) (k : ThreadId) (pc : LockPc)
    (hpc : s'.pc = (s.goto k pc).pc)
    (hout : (s.pc k).counted = false) (hin : pc.counted = true)
    (hcnt : s'.readCnt = s.readCnt + 1) : s'.Counts := by
  obtain ⟨readers, hmem, hcard⟩ := h
  have hnew : k ∉ readers := by
    rw [hmem, hout]
    exact Bool.false_ne_true
  refine ⟨insert k readers, fun j => ?_, ?_⟩
  · rw [hpc, Finset.mem_insert, hmem]
    by_cases hj : j = k
    · rw [hj, goto_self]
      simp [hin]
    · rw [goto_other s pc hj]
      simp [hj]
  · rw [hcnt, hcard, Finset.card_insert_of_notMem hnew]
    rfl

/-- A thread is counted out. -/
theorem Counts.leave (h : s.Counts) (k : ThreadId) (pc : LockPc)
    (hpc : s'.pc = (s.goto k pc).pc)
    (hin : (s.pc k).counted = true) (hout : pc.counted = false)
    (hcnt : s'.readCnt = s.readCnt - 1) : s'.Counts := by
  obtain ⟨readers, hmem, hcard⟩ := h
  have hold : k ∈ readers := (hmem k).mpr hin
  refine ⟨readers.erase k, fun j => ?_, ?_⟩
  · rw [hpc, Finset.mem_erase, hmem]
    by_cases hj : j = k
    · rw [hj, goto_self]
      simp [hout]
    · rw [goto_other s pc hj]
      simp [hj]
  · have hpos := Finset.card_pos.mpr ⟨k, hold⟩
    rw [hcnt, hcard, Finset.card_erase_of_mem hold]
    omega

/-- Nobody is counted when the counter is zero. -/
theorem Counts.eq_zero (h : s.Counts) (hcnt : s.readCnt = 0) (k : ThreadId) :
    (s.pc k).counted = false := by
  obtain ⟨readers, hmem, hcard⟩ := h
  have hempty : readers = ∅ := Finset.card_eq_zero.mp (by omega)
  rw [← Bool.not_eq_true, ← hmem, hempty]
  exact Finset.notMem_empty k

/-- Somebody is counted when it is not. -/
theorem Counts.exists_counted (h : s.Counts) (hcnt : s.readCnt ≠ 0) :
    ∃ k, (s.pc k).counted = true := by
  obtain ⟨readers, hmem, hcard⟩ := h
  have hne : readers.Nonempty := by
    rw [Finset.nonempty_iff_ne_empty]
    rintro rfl
    exact hcnt hcard
  obtain ⟨k, hk⟩ := hne
  exact ⟨k, (hmem k).mp hk⟩

/-! ### Who has `read_mtx` -/

/-- One thread at a time is between `read_mtx.lock()` and `read_mtx.unlock()`. -/
theorem LockOk.alone (h : LockOk s) (hk : (s.pc k).hasRead) (hj : j ≠ k) :
    (s.pc j).hasRead = false := by
  have hread := (h.hasRead k).mpr hk
  rw [← Bool.not_eq_true, ← h.hasRead, hread]
  exact fun heq => hj (Option.some.inj heq).symm

/-- So any other thread that is counted or shares is in the read section. -/
theorem LockOk.eq_reading (h : LockOk s) (hk : (s.pc k).hasRead) (hj : j ≠ k)
    (hinside : (s.pc j).counted ∨ (s.pc j).shares) : s.pc j = .reading := by
  have halone := h.alone hk hj
  -- of the places that are counted or share, only this one is without `read_mtx`
  cases hpc : s.pc j <;> rw [hpc] at halone hinside <;>
    first | rfl | exact absurd halone (by decide) | exact absurd hinside (by decide)

/-- A thread that has `read_mtx` and goes elsewhere leaves no other at a place that needs it. -/
theorem LockOk.not_at (h : LockOk s) (hk : (s.pc k).hasRead) {q : LockPc} (hq : q.hasRead)
    (hne : pc ≠ q) : (s.goto k pc).pc j ≠ q := by
  intro hj
  rcases goto_cases hj with ⟨-, heq⟩ | ⟨hjk, hold⟩
  · exact hne heq
  · have halone := h.alone hk hjk
    rw [hold, hq] at halone
    cases halone

/-! ### Steps -/

/-- A thread takes or leaves `read_mtx`, or comes to a lock, and nothing else changes. -/
theorem LockOk.move (h : LockOk s) (k : ThreadId) (pc : LockPc)
    (hpc : s'.pc = (s.goto k pc).pc)
    (hwrite : s'.writeMtx = s.writeMtx) (hcnt : s'.readCnt = s.readCnt)
    (hfirst : s'.firstIn = s.firstIn) (hread : ∀ j, s'.readMtx = some j ↔ (s'.pc j).hasRead)
    (hcounted : pc.counted = (s.pc k).counted) (hshares : pc.shares = (s.pc k).shares)
    (hto : pc ≠ .firstReader ∧ pc ≠ .lastReader ∧ pc ≠ .writing) : LockOk s' := by
  obtain ⟨htoFirst, htoLast, htoWriting⟩ := hto
  have hsharesAll : ∀ j, (s'.pc j).shares = (s.pc j).shares := by
    intro j
    rw [hpc]
    exact goto_same LockPc.shares hshares j
  constructor
  case hasRead =>
    exact hread
  case counts =>
    exact h.counts.same hpc hcounted hcnt
  case firstReader =>
    intro j hj
    rw [hcnt, hfirst]
    exact h.firstReader j (goto_back htoFirst (hpc ▸ hj))
  case lastReader =>
    intro j hj
    rw [hcnt]
    exact h.lastReader j (goto_back htoLast (hpc ▸ hj))
  case shared =>
    intro j hj
    rw [hwrite, hfirst]
    exact h.shared j (hsharesAll j ▸ hj)
  case writing =>
    intro j hj
    rw [hwrite]
    exact h.writing j (goto_back htoWriting (hpc ▸ hj))
  case apart =>
    intro i j hi hj
    exact h.apart i j (hsharesAll i ▸ hi) (goto_back htoWriting (hpc ▸ hj))

/-- `read_mtx.lock()`. -/
theorem LockOk.lockRead (h : LockOk s) (hhas : pc.hasRead = true)
    (hcounted : pc.counted = (s.pc k).counted) (hshares : pc.shares = (s.pc k).shares)
    (hto : pc ≠ .firstReader ∧ pc ≠ .lastReader ∧ pc ≠ .writing) : LockOk (s.lockRead k pc) := by
  unfold ReadWriteLock.lockRead
  split
  · rename_i hfree
    refine h.move k pc rfl rfl rfl rfl (fun j => ?_) hcounted hshares hto
    change some k = some j ↔ ((s.goto k pc).pc j).hasRead
    by_cases hj : j = k
    · rw [hj, goto_self]
      simp [hhas]
    · rw [goto_other s pc hj, ← h.hasRead, hfree]
      simp [Ne.symm hj]
  · exact h

/-- `read_mtx.unlock()`. -/
theorem LockOk.unlockRead (h : LockOk s) (hfrom : (s.pc k).hasRead = true)
    (hhas : pc.hasRead = false) (hcounted : pc.counted = (s.pc k).counted)
    (hshares : pc.shares = (s.pc k).shares)
    (hto : pc ≠ .firstReader ∧ pc ≠ .lastReader ∧ pc ≠ .writing) :
    LockOk (s.unlockRead k pc) := by
  refine h.move k pc rfl rfl rfl rfl (fun j => ?_) hcounted hshares hto
  change none = some j ↔ ((s.goto k pc).pc j).hasRead
  by_cases hj : j = k
  · rw [hj, goto_self]
    simp [hhas]
  · rw [goto_other s pc hj, h.alone hfrom hj]
    simp

/-- `write_mtx.lock()` in `readLock`: nobody is in a write section. -/
theorem LockOk.lockFirst (h : LockOk s) (hpc : s.pc k = .firstReader) :
    LockOk (s.lockWrite k .entered) := by
  have hhas : LockPc.hasRead .entered = (s.pc k).hasRead := by rw [hpc]; rfl
  have hcounted : LockPc.counted .entered = (s.pc k).counted := by rw [hpc]; rfl
  obtain ⟨-, hfirst⟩ := h.firstReader k hpc
  unfold ReadWriteLock.lockWrite
  split
  · rename_i hfree
    have hnobody : ∀ j, s.pc j ≠ .writing := fun j hj => nomatch (h.writing j hj).symm.trans hfree
    constructor
    case hasRead =>
      exact fun j => (h.hasRead j).trans (goto_same LockPc.hasRead hhas j ▸ Iff.rfl)
    case counts =>
      exact h.counts.same (k := k) rfl hcounted rfl
    case firstReader =>
      exact fun j hj => h.firstReader j (goto_back (by decide) hj)
    case lastReader =>
      exact fun j hj => h.lastReader j (goto_back (by decide) hj)
    case shared =>
      -- it locks on behalf of all readers, and is the one `firstIn` names
      exact fun _ _ => ⟨Option.some_ne_none k, hfirst.symm⟩
    case writing =>
      exact fun j hj => absurd (goto_back (by decide) hj) (hnobody j)
    case apart =>
      exact fun _ j _ hj => hnobody j (goto_back (by decide) hj)
  · exact h

/-- `write_mtx.lock()` in `writeLock`: nobody is in any section. -/
theorem LockOk.lockWriter (h : LockOk s) (hpc : s.pc k = .writeLock) :
    LockOk (s.lockWrite k .writing) := by
  have hhas : LockPc.hasRead .writing = (s.pc k).hasRead := by rw [hpc]; rfl
  have hcounted : LockPc.counted .writing = (s.pc k).counted := by rw [hpc]; rfl
  have hshares : LockPc.shares .writing = (s.pc k).shares := by rw [hpc]; rfl
  unfold ReadWriteLock.lockWrite
  split
  · rename_i hfree
    have hnobody : ∀ j, s.pc j ≠ .writing := fun j hj => nomatch (h.writing j hj).symm.trans hfree
    -- a reader that shares the lock would hold the mutex locked
    have hnoReader : ∀ j, ((s.goto k .writing).pc j).shares = true → False := by
      intro j hj
      rw [goto_same LockPc.shares hshares] at hj
      exact (h.shared j hj).1 hfree
    constructor
    case hasRead =>
      exact fun j => (h.hasRead j).trans (goto_same LockPc.hasRead hhas j ▸ Iff.rfl)
    case counts =>
      exact h.counts.same (k := k) rfl hcounted rfl
    case firstReader =>
      exact fun j hj => h.firstReader j (goto_back (by decide) hj)
    case lastReader =>
      exact fun j hj => h.lastReader j (goto_back (by decide) hj)
    case shared =>
      exact fun j hj => (hnoReader j hj).elim
    case writing =>
      intro j hj
      rcases goto_cases hj with ⟨rfl, -⟩ | ⟨-, hold⟩
      · rfl
      · exact absurd hold (hnobody j)
    case apart =>
      exact fun j _ hj => (hnoReader j hj).elim
  · exact h

/-- `write_mtx.unlock()` in `readUnlock`: nobody shares the lock any more. -/
theorem LockOk.unlockLast (h : LockOk s) (hpc : s.pc k = .lastReader) :
    LockOk (s.unlockWrite k .left) := by
  have hhas : LockPc.hasRead .left = (s.pc k).hasRead := by rw [hpc]; rfl
  have hcounted : LockPc.counted .left = (s.pc k).counted := by rw [hpc]; rfl
  have hread : (s.pc k).hasRead = true := by rw [hpc]; rfl
  have hshares : (s.pc k).shares = true := by rw [hpc]; rfl
  have hnoReader : ∀ j, ((s.goto k .left).pc j).shares = true → False := by
    intro j hj
    by_cases hjk : j = k
    · rw [hjk, goto_self] at hj
      cases hj
    · rw [goto_other s _ hjk] at hj
      -- it would be in the read section, and counted
      have hreading := h.eq_reading hread hjk (.inr hj)
      have hzero := h.counts.eq_zero (h.lastReader k hpc) j
      rw [hreading] at hzero
      cases hzero
  constructor
  case hasRead =>
    exact fun j => (h.hasRead j).trans (goto_same LockPc.hasRead hhas j ▸ Iff.rfl)
  case counts =>
    exact h.counts.same (k := k) rfl hcounted rfl
  case firstReader =>
    exact fun j hj => h.firstReader j (goto_back (by decide) hj)
  case lastReader =>
    exact fun j hj => h.lastReader j (goto_back (by decide) hj)
  case shared =>
    exact fun j hj => (hnoReader j hj).elim
  case writing =>
    exact fun j hj => absurd (goto_back (by decide) hj) (h.apart k j hshares)
  case apart =>
    exact fun j _ hj => (hnoReader j hj).elim

/-- `write_mtx.unlock()` in `writeUnlock`. -/
theorem LockOk.unlockWriter (h : LockOk s) (hpc : s.pc k = .writing) :
    LockOk (s.unlockWrite k .outside) := by
  have hhas : LockPc.hasRead .outside = (s.pc k).hasRead := by rw [hpc]; rfl
  have hcounted : LockPc.counted .outside = (s.pc k).counted := by rw [hpc]; rfl
  have hshares : LockPc.shares .outside = (s.pc k).shares := by rw [hpc]; rfl
  -- there was a writer in its section, and so no reader
  have hnoReader : ∀ j, ((s.goto k .outside).pc j).shares = true → False := by
    intro j hj
    rw [goto_same LockPc.shares hshares] at hj
    exact h.apart j k hj hpc
  constructor
  case hasRead =>
    exact fun j => (h.hasRead j).trans (goto_same LockPc.hasRead hhas j ▸ Iff.rfl)
  case counts =>
    exact h.counts.same (k := k) rfl hcounted rfl
  case firstReader =>
    exact fun j hj => h.firstReader j (goto_back (by decide) hj)
  case lastReader =>
    exact fun j hj => h.lastReader j (goto_back (by decide) hj)
  case shared =>
    exact fun j hj => (hnoReader j hj).elim
  case writing =>
    intro j hj
    -- another writer would have the same mutex
    rcases goto_cases hj with ⟨-, heq⟩ | ⟨hne, hold⟩
    · cases heq
    · exact absurd (Option.some.inj ((h.writing j hold).symm.trans (h.writing k hpc))) hne
  case apart =>
    exact fun j _ hj => (hnoReader j hj).elim

/-- `if (++read_cnt == 1)`. -/
theorem LockOk.countIn (h : LockOk s) (hpc : s.pc k = .entering) : LockOk (s.countIn k) := by
  have hread : (s.pc k).hasRead = true := by rw [hpc]; rfl
  have hout : (s.pc k).counted = false := by rw [hpc]; rfl
  unfold ReadWriteLock.countIn
  split
  · rename_i hzero
    have hcnt : s.readCnt = 0 := by omega
    have hhas : LockPc.hasRead .firstReader = (s.pc k).hasRead := by rw [hpc]; rfl
    have hshares : LockPc.shares .firstReader = (s.pc k).shares := by rw [hpc]; rfl
    -- the counter was zero: whoever shares the lock is counted
    have hnoReader : ∀ j, ((s.goto k .firstReader).pc j).shares = true → False := by
      intro j hj
      rw [goto_same LockPc.shares hshares] at hj
      by_cases hjk : j = k
      · rw [hjk, hpc] at hj
        cases hj
      · have hcounted := h.counts.eq_zero hcnt j
        rw [h.eq_reading hread hjk (.inr hj)] at hcounted
        cases hcounted
    constructor
    case hasRead =>
      exact fun j => (h.hasRead j).trans (goto_same LockPc.hasRead hhas j ▸ Iff.rfl)
    case counts =>
      exact h.counts.enter k .firstReader rfl hout rfl rfl
    case firstReader =>
      intro j hj
      rcases goto_cases hj with ⟨rfl, -⟩ | ⟨hjk, hold⟩
      · exact ⟨hzero, rfl⟩
      · have halone := h.alone hread hjk
        rw [hold] at halone
        cases halone
    case lastReader =>
      exact fun j hj => absurd hj (h.not_at hread rfl (by decide))
    case shared =>
      exact fun j hj => (hnoReader j hj).elim
    case writing =>
      exact fun j hj => h.writing j (goto_back (by decide) hj)
    case apart =>
      exact fun j _ hj => (hnoReader j hj).elim
  · rename_i hsome
    have hcnt : s.readCnt ≠ 0 := by omega
    have hhas : LockPc.hasRead .entered = (s.pc k).hasRead := by rw [hpc]; rfl
    -- somebody else is in the read section
    obtain ⟨i, hi⟩ := h.counts.exists_counted hcnt
    have hik : i ≠ k := by
      rintro rfl
      rw [hout] at hi
      cases hi
    have hi_shares : (s.pc i).shares = true := by
      rw [h.eq_reading hread hik (.inl hi)]
      rfl
    constructor
    case hasRead =>
      exact fun j => (h.hasRead j).trans (goto_same LockPc.hasRead hhas j ▸ Iff.rfl)
    case counts =>
      exact h.counts.enter k .entered rfl hout rfl rfl
    case firstReader =>
      exact fun j hj => absurd hj (h.not_at hread rfl (by decide))
    case lastReader =>
      exact fun j hj => absurd hj (h.not_at hread rfl (by decide))
    case shared =>
      exact fun j _ => h.shared i hi_shares
    case writing =>
      exact fun j hj => h.writing j (goto_back (by decide) hj)
    case apart =>
      exact fun _ j _ hj => h.apart i j hi_shares (goto_back (by decide) hj)

/-- `if (--read_cnt == 0)`. -/
theorem LockOk.countOut (h : LockOk s) (hpc : s.pc k = .leaving) : LockOk (s.countOut k) := by
  have hread : (s.pc k).hasRead = true := by rw [hpc]; rfl
  have hin : (s.pc k).counted = true := by rw [hpc]; rfl
  have hshares : (s.pc k).shares = true := by rw [hpc]; rfl
  unfold ReadWriteLock.countOut
  split
  · rename_i hzero
    have hhas : LockPc.hasRead .lastReader = (s.pc k).hasRead := by rw [hpc]; rfl
    have hsharesLast : LockPc.shares .lastReader = (s.pc k).shares := hshares.symm
    constructor
    case hasRead =>
      exact fun j => (h.hasRead j).trans (goto_same LockPc.hasRead hhas j ▸ Iff.rfl)
    case counts =>
      exact h.counts.leave k .lastReader rfl hin rfl rfl
    case firstReader =>
      exact fun j hj => absurd hj (h.not_at hread rfl (by decide))
    case lastReader =>
      exact fun _ _ => hzero
    case shared =>
      exact fun j _ => h.shared k hshares
    case writing =>
      exact fun j hj => h.writing j (goto_back (by decide) hj)
    case apart =>
      exact fun _ j _ hj => h.apart k j hshares (goto_back (by decide) hj)
  · have hhas : LockPc.hasRead .left = (s.pc k).hasRead := by rw [hpc]; rfl
    constructor
    case hasRead =>
      exact fun j => (h.hasRead j).trans (goto_same LockPc.hasRead hhas j ▸ Iff.rfl)
    case counts =>
      exact h.counts.leave k .left rfl hin rfl rfl
    case firstReader =>
      exact fun j hj => absurd hj (h.not_at hread rfl (by decide))
    case lastReader =>
      exact fun j hj => absurd hj (h.not_at hread rfl (by decide))
    case shared =>
      exact fun j _ => h.shared k hshares
    case writing =>
      exact fun j hj => h.writing j (goto_back (by decide) hj)
    case apart =>
      exact fun _ j _ hj => h.apart k j hshares (goto_back (by decide) hj)

theorem LockOk.next (h : LockOk s) (k : ThreadId) : LockOk (s.next k) := by
  unfold ReadWriteLock.next
  split
  · exact h
  · rename_i hpc
    exact h.lockRead rfl (by rw [hpc]; rfl) (by rw [hpc]; rfl) (by decide)
  · rename_i hpc
    exact h.countIn hpc
  · rename_i hpc
    exact h.lockFirst hpc
  · rename_i hpc
    exact h.unlockRead (by rw [hpc]; rfl) rfl (by rw [hpc]; rfl) (by rw [hpc]; rfl) (by decide)
  · rename_i hpc
    exact h.lockRead rfl (by rw [hpc]; rfl) (by rw [hpc]; rfl) (by decide)
  · rename_i hpc
    exact h.countOut hpc
  · rename_i hpc
    exact h.unlockLast hpc
  · rename_i hpc
    exact h.unlockRead (by rw [hpc]; rfl) rfl (by rw [hpc]; rfl) (by rw [hpc]; rfl) (by decide)
  · rename_i hpc
    exact h.lockWriter hpc
  · rename_i hpc
    exact h.unlockWriter hpc

theorem LockOk.begin (h : LockOk s) (hpc : s.pc k = .outside) (type : LockerType) :
    LockOk (s.begin k type) := by
  have hmove : ∀ pc : LockPc, pc.hasRead = (s.pc k).hasRead → pc.counted = (s.pc k).counted →
      pc.shares = (s.pc k).shares → (pc ≠ .firstReader ∧ pc ≠ .lastReader ∧ pc ≠ .writing) →
      LockOk (s.goto k pc) := by
    intro pc hhas hcounted hshares hto
    refine h.move k pc rfl rfl rfl rfl (fun j => ?_) hcounted hshares hto
    exact (h.hasRead j).trans (goto_same LockPc.hasRead hhas j ▸ Iff.rfl)
  cases type with
  | read => exact hmove .readLock (by rw [hpc]; rfl) (by rw [hpc]; rfl) (by rw [hpc]; rfl) (by decide)
  | write =>
    exact hmove .writeLock (by rw [hpc]; rfl) (by rw [hpc]; rfl) (by rw [hpc]; rfl) (by decide)

/-- **Step**: each step of each thread keeps the invariant, and none fails. -/
theorem LockOk.step (h : LockOk s) (a : LockAction) : ∃ s', lockStep s a = .ok s' ∧ LockOk s' := by
  cases a with
  | lock k type =>
    refine ⟨_, rfl, ?_⟩
    split
    · rename_i hpc
      exact h.begin hpc type
    · exact h
  | step k => exact ⟨_, rfl, h.next k⟩

theorem lockOk_init : LockOk init where
  hasRead := fun _ => ⟨fun h => (nomatch h), fun h => nomatch h⟩
  counts := ⟨∅, fun _ => ⟨fun h => (nomatch h), fun h => nomatch h⟩, rfl⟩
  firstReader := fun _ h => nomatch h
  lastReader := fun _ h => nomatch h
  shared := fun _ h => nomatch h
  writing := fun _ h => nomatch h
  apart := fun _ _ h => nomatch h

/-! ## Exclusion -/

/-- What the lock is for. -/
structure Excludes (s : ReadWriteLock) : Prop where
  /-- nobody is in a section together with a writer, -/
  exclusive : ∀ j k, j ≠ k → s.pc k = .writing → s.pc j ≠ .writing ∧ s.pc j ≠ .reading
  /-- `read_cnt` is the number of readers inside, -/
  counts : s.readMtx = none →
    ∃ readers : Finset ThreadId, (∀ k, k ∈ readers ↔ s.pc k = .reading) ∧ s.readCnt = readers.card
  /-- and they keep the writers out. -/
  held : s.readMtx = none → 0 < s.readCnt → s.writeMtx ≠ none

/-- When `read_mtx` is free, the threads that are counted are in the read section. -/
theorem LockOk.counted_iff (h : LockOk s) (hfree : s.readMtx = none) (k : ThreadId) :
    (s.pc k).counted ↔ s.pc k = .reading := by
  have hnone : (s.pc k).hasRead = false := by
    rw [← Bool.not_eq_true, ← h.hasRead, hfree]
    exact fun heq => nomatch heq
  -- of the places without `read_mtx`, only the read section is counted
  cases hpc : s.pc k <;> rw [hpc] at hnone <;> revert hnone <;> decide

theorem LockOk.excludes (h : LockOk s) : Excludes s where
  exclusive := by
    intro j k hjk hk
    constructor
    · intro hj
      exact hjk (Option.some.inj ((h.writing j hj).symm.trans (h.writing k hk)))
    · intro hj
      exact h.apart j k (by rw [hj]; rfl) hk
  counts := by
    intro hfree
    obtain ⟨readers, hmem, hcard⟩ := h.counts
    exact ⟨readers, fun k => (hmem k).trans (h.counted_iff hfree k), hcard⟩
  held := by
    intro hfree hpos
    obtain ⟨k, hk⟩ := h.counts.exists_counted (by omega)
    exact (h.shared k (by rw [(h.counted_iff hfree k).mp hk]; rfl)).1

/-- **Exclusion**: however the steps of any number of threads interleave, nobody is in a write
section together with anybody else. -/
theorem sections_exclude (as : List LockAction) : ∃ s, run lockStep init as = .ok s ∧ Excludes s := by
  obtain ⟨s, hrun, hok⟩ := run_ok (P := fun _ _ => True) (fun _ a h _ => LockOk.step h a) lockOk_init
    (along_of_forall (p := fun _ => True) fun _ _ => trivial)
  exact ⟨s, hrun, hok.excludes⟩

/-! ## Ownership -/

/-- Each mutex was unlocked by the thread that had locked it. -/
def OwnsUnlocks (s : ReadWriteLock) : Prop := ∀ u ∈ s.unlocks, u.owner = some u.thread

/-- The reader that unlocks `write_mtx`, having found nobody inside when it left, is the one that had
found nobody inside when it came. -/
def FirstLeavesLast (s : ReadWriteLock) : LockAction → Prop
  | .step k => s.pc k = .lastReader → s.firstIn = some k
  | .lock .. => True

theorem ownsUnlocks_append {u : Unlock} (h : s'.unlocks = s.unlocks ++ [u]) :
    OwnsUnlocks s' ↔ OwnsUnlocks s ∧ u.owner = some u.thread := by
  unfold OwnsUnlocks
  rw [h]
  simp only [List.mem_append, List.mem_singleton]
  constructor
  · exact fun hall => ⟨fun v hv => hall v (.inl hv), hall u (.inr rfl)⟩
  · rintro ⟨hold, hnew⟩ v (hv | rfl)
    · exact hold v hv
    · exact hnew

/-- Nothing is unlocked. -/
theorem ownsUnlocks_same {p : Prop} (h : s'.unlocks = s.unlocks) (hp : p) :
    OwnsUnlocks s' ↔ OwnsUnlocks s ∧ p := by
  unfold OwnsUnlocks
  rw [h]
  exact (and_iff_left hp).symm

theorem unlocks_lockRead (s : ReadWriteLock) (k : ThreadId) (pc : LockPc) :
    (s.lockRead k pc).unlocks = s.unlocks := by
  unfold ReadWriteLock.lockRead
  split <;> rfl

theorem unlocks_lockWrite (s : ReadWriteLock) (k : ThreadId) (pc : LockPc) :
    (s.lockWrite k pc).unlocks = s.unlocks := by
  unfold ReadWriteLock.lockWrite
  split <;> rfl

theorem unlocks_countIn (s : ReadWriteLock) (k : ThreadId) : (s.countIn k).unlocks = s.unlocks := by
  unfold ReadWriteLock.countIn
  split <;> rfl

theorem unlocks_countOut (s : ReadWriteLock) (k : ThreadId) : (s.countOut k).unlocks = s.unlocks := by
  unfold ReadWriteLock.countOut
  split <;> rfl

/-- Only the last reader out can unlock what another thread has locked. -/
theorem LockOk.ownsUnlocks (h : LockOk s) (k : ThreadId) :
    OwnsUnlocks (s.next k) ↔ OwnsUnlocks s ∧ FirstLeavesLast s (.step k) := by
  have hnot : ∀ {pc}, s.pc k = pc → pc ≠ .lastReader → FirstLeavesLast s (.step k) := by
    rintro pc rfl hne hlast
    exact absurd hlast hne
  unfold ReadWriteLock.next
  split
  · rename_i hpc
    exact ownsUnlocks_same rfl (hnot hpc (by decide))
  · rename_i hpc
    exact ownsUnlocks_same (unlocks_lockRead ..) (hnot hpc (by decide))
  · rename_i hpc
    exact ownsUnlocks_same (unlocks_countIn ..) (hnot hpc (by decide))
  · rename_i hpc
    exact ownsUnlocks_same (unlocks_lockWrite ..) (hnot hpc (by decide))
  · rename_i hpc
    -- only the thread that has `read_mtx` comes to an unlock of it
    have howner : s.readMtx = some k := (h.hasRead k).mpr (by rw [hpc]; rfl)
    rw [ownsUnlocks_append (s := s) rfl]
    exact and_congr_right fun _ => ⟨fun _ => hnot hpc (by decide), fun _ => howner⟩
  · rename_i hpc
    exact ownsUnlocks_same (unlocks_lockRead ..) (hnot hpc (by decide))
  · rename_i hpc
    exact ownsUnlocks_same (unlocks_countOut ..) (hnot hpc (by decide))
  · rename_i hpc
    -- the mutex is that of the first reader in
    have hfirst : s.writeMtx = s.firstIn := (h.shared k (by rw [hpc]; rfl)).2
    rw [ownsUnlocks_append (s := s) rfl]
    exact and_congr_right fun _ => ⟨fun howner _ => hfirst.symm.trans howner,
      fun hlast => hfirst.trans (hlast hpc)⟩
  · rename_i hpc
    have howner : s.readMtx = some k := (h.hasRead k).mpr (by rw [hpc]; rfl)
    rw [ownsUnlocks_append (s := s) rfl]
    exact and_congr_right fun _ => ⟨fun _ => hnot hpc (by decide), fun _ => howner⟩
  · rename_i hpc
    exact ownsUnlocks_same (unlocks_lockWrite ..) (hnot hpc (by decide))
  · rename_i hpc
    have howner : s.writeMtx = some k := h.writing k hpc
    rw [ownsUnlocks_append (s := s) rfl]
    exact and_congr_right fun _ => ⟨fun _ => hnot hpc (by decide), fun _ => howner⟩

theorem LockOk.step_ownsUnlocks (h : LockOk s) {a : LockAction} (hstep : lockStep s a = .ok s') :
    LockOk s' ∧ (OwnsUnlocks s' ↔ OwnsUnlocks s ∧ FirstLeavesLast s a) := by
  obtain ⟨t, ht, hok⟩ := h.step a
  cases ht.symm.trans hstep
  refine ⟨hok, ?_⟩
  cases a with
  | lock k type =>
    cases hstep
    refine ownsUnlocks_same ?_ trivial
    split
    · cases type <;> rfl
    · rfl
  | step k =>
    cases hstep
    exact h.ownsUnlocks k

/-- **Ownership**: in every run the mutexes are unlocked by the threads that have locked them exactly
when the reader that comes first is the last one to leave. -/
theorem unlocks_owned_iff (as : List LockAction) : ∃ s, run lockStep init as = .ok s ∧
    (OwnsUnlocks s ↔ Along lockStep FirstLeavesLast init as) := by
  have hall : Along lockStep (fun _ _ => True) init as := along_of_forall fun _ _ => trivial
  obtain ⟨s, hrun, -⟩ := run_ok (fun _ a h _ => LockOk.step h a) lockOk_init hall
  refine ⟨s, hrun, ?_⟩
  -- nothing is unlocked at the start, so the steps decide
  have hnone : OwnsUnlocks init := fun _ h => nomatch h
  rw [run_iff_along (fun _ _ _ h hstep => LockOk.step_ownsUnlocks h hstep) lockOk_init hrun]
  exact and_iff_right hnone

/-- Thread 0 comes first, and thread 1 leaves last. -/
theorem unlocks_other_owner : ∃ s, run lockStep init
    [.lock 0 .read, .step 0, .step 0, .step 0, .step 0, .lock 1 .read, .step 1, .step 1, .step 1,
      .step 0, .step 0, .step 0, .step 1, .step 1, .step 1] = .ok s ∧ ¬ OwnsUnlocks s := by
  refine ⟨_, rfl, fun howns => ?_⟩
  have hlast := howns ⟨.writeMtx, 1, some 0⟩ (by decide)
  cases hlast

end ReadWriteLock

end Sails.Base
