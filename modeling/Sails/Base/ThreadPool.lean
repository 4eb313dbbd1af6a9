import Sails.Library.Mutex
import Sails.Library.Run
import Mathlib.Data.Fin.Basic
import Mathlib.Logic.Function.Basic

/-!
# `base::ThreadPool`

Workers, threads that call `add_task`, and the destructor. A step of a thread is one statement
between two accesses to the lock, the condition variable or a member: the test of the worker's
predicate and the sleep in `wait` are two steps, and so are the destructor's store and its
`notify_all`.

- `WorkerPc`, `CallerPc`, `DestructorPc`: where the threads are in the code
- `workerStep`, `callerStep`, `destructorStep`: their next steps
- `threadPoolStep`: one step of any thread
- `PoolOk`: who has the lock, and what a worker may rely on; no step fails
-/

namespace Sails.Base

open TransitionRun

/-- `threadpool_shutdown_t`. -/
def immediateShutdown : Int := 1

def gracefulShutdown : Int := 2

/-- Where a worker is in `threadpool_thread`. -/
inductive WorkerPc (τ : Type*) where
  /-- before the constructor of `locker` -/
  | locking
  /-- before the condition of the inner loop -/
  | testing
  /-- before `notify.wait`, which releases the lock -/
  | toSleep
  | asleep
  /-- in `notify.wait`, which takes the lock again before it returns -/
  | woken
  /-- behind the inner loop -/
  | deciding
  /-- before `front()` and `pop()` -/
  | grabbing
  /-- before `++` -/
  | counting (task : τ)
  /-- before the destructor of `locker` -/
  | releasing (task : τ)
  | working (task : τ)
  /-- after `break`, before the destructor of `locker` -/
  | breaking
  | exited

/-- Where a thread is in `add_task`, with the number of tasks it has found waiting. -/
inductive CallerPc (τ : Type*) where
  | outside
  | locking (task : τ)
  /-- before `if (task_queue_available_size > 0)` -/
  | testing (task : τ)
  | pushing (task : τ) (waiting : Nat)
  /-- before `--` -/
  | counting (task : τ) (waiting : Nat)
  | notifying (task : τ) (waiting : Nat)
  | unlocking (task : τ) (waiting : Nat) (result : Int)

/-- Where the destructor is. -/
inductive DestructorPc where
  /-- before the store to `shutdown` -/
  | alive
  /-- before `notify.notify_all()` -/
  | notifying
  /-- before the join of thread `i` -/
  | joining (i : Nat)

/-- A thread that can have the lock. -/
inductive PoolThread (n : Nat) where
  | worker (i : Fin n)
  | caller (k : Nat)
  deriving DecidableEq, Repr

/-- What happened, in order; no function reads it. -/
inductive PoolEvent (τ : Type*) where
  /-- the test in `add_task`, with the number of tasks waiting -/
  | tested (k : Nat) (task : τ) (waiting : Nat)
  | accepted (k : Nat) (task : τ)
  | returned (k : Nat) (task : τ) (result : Int)
  | taken (i : Nat) (task : τ)

/-- `ThreadPool` with its `threadNum` workers, and the threads at it. -/
structure ThreadPool (τ : Type*) (threadNum : Nat) where
  taskQueueAvailableSize : Int
  /-- who has locked `lock` -/
  lock : Option (PoolThread threadNum)
  shutdown : Int
  taskQueue : List τ
  workers : Fin threadNum → WorkerPc τ
  callers : Nat → CallerPc τ
  destructor : DestructorPc
  log : List (PoolEvent τ)

namespace WorkerPc

variable {τ : Type*}

/-- The worker waits on the condition variable. -/
def isAsleep : WorkerPc τ → Bool
  | .asleep => true
  | _ => false

/-- The worker has the lock. -/
def holds : WorkerPc τ → Bool
  | .testing | .toSleep | .deciding | .grabbing | .counting _ | .releasing _ | .breaking => true
  | _ => false

end WorkerPc

/-- The thread has the lock. -/
def CallerPc.holds {τ : Type*} : CallerPc τ → Bool
  | .outside | .locking _ => false
  | _ => true

namespace ThreadPool

variable {τ : Type*} {n : Nat}

/-- The constructor; each worker is at the beginning of `threadpool_thread`. -/
def init (queueSize : Int) : ThreadPool τ n where
  taskQueueAvailableSize := queueSize
  lock := none
  shutdown := 0
  taskQueue := []
  workers := fun _ => .locking
  callers := fun _ => .outside
  destructor := .alive
  log := []

variable (s : ThreadPool τ n)

/-- Worker `i` is now at `pc`. -/
def setWorker (i : Fin n) (pc : WorkerPc τ) : ThreadPool τ n :=
  { s with workers := Function.update s.workers i pc }

/-- Thread `k` is now at `pc`. -/
def setCaller (k : Nat) (pc : CallerPc τ) : ThreadPool τ n :=
  { s with callers := Function.update s.callers k pc }

/-- The condition variable wakes the workers of which `p` holds. -/
def wake (p : Fin n → Bool) : ThreadPool τ n :=
  { s with workers := fun i => if p i && (s.workers i).isAsleep then .woken else s.workers i }

/-- The next step of worker `i`. -/
def workerStep (i : Fin n) : Except Fault (ThreadPool τ n) :=
  match s.workers i with
  | .locking | .woken =>
    .ok (if s.lock = none then { s with lock := some (.worker i) }.setWorker i .testing else s)
  | .testing =>
    .ok (s.setWorker i (if s.taskQueue.length = 0 ∧ s.shutdown = 0 then .toSleep else .deciding))
  | .toSleep => .ok ({ s with lock := none }.setWorker i .asleep)
  | .asleep => .ok s
  | .deciding =>
    .ok (s.setWorker i
      (if s.shutdown = immediateShutdown ∨
          (s.shutdown = gracefulShutdown ∧ s.taskQueue.length = 0) then .breaking
        else .grabbing))
  | .grabbing =>
    match s.taskQueue with
    | [] => .error .outOfBounds  -- `front()` of an empty queue
    | task :: rest =>
      .ok ({ s with taskQueue := rest, log := s.log ++ [PoolEvent.taken i task] }.setWorker i
        (.counting task))
  | .counting task =>
    .ok ({ s with taskQueueAvailableSize := s.taskQueueAvailableSize + 1 }.setWorker i
      (.releasing task))
  | .releasing task => .ok ({ s with lock := none }.setWorker i (.working task))
  | .working _ => .ok (s.setWorker i .locking)
  | .breaking => .ok ({ s with lock := none }.setWorker i .exited)
  | .exited => .ok s

/-- `notify.notify_one()`: one of the workers asleep is woken, if there is one. Which one is not
for the caller to say; a choice that is none is no step. -/
def notifyOne (k : Nat) (chosen : Option (Fin n)) (pc : CallerPc τ) : ThreadPool τ n :=
  match chosen with
  | some i => if (s.workers i).isAsleep then (s.wake fun j => decide (j = i)).setCaller k pc else s
  | none => if ∀ i, (s.workers i).isAsleep = false then s.setCaller k pc else s

/-- The next step of thread `k` in `add_task`. -/
def callerStep (k : Nat) (chosen : Option (Fin n)) : ThreadPool τ n :=
  match s.callers k with
  | .outside => s
  | .locking task =>
    if s.lock = none then { s with lock := some (.caller k) }.setCaller k (.testing task) else s
  | .testing task =>
    { s with log := s.log ++ [PoolEvent.tested k task s.taskQueue.length] }.setCaller k
      (if s.taskQueueAvailableSize > 0 then .pushing task s.taskQueue.length
        else .unlocking task s.taskQueue.length (-1))
  | .pushing task waiting =>
    { s with
      taskQueue := s.taskQueue ++ [task]
      log := s.log ++ [PoolEvent.accepted k task] }.setCaller k (.counting task waiting)
  | .counting task waiting =>
    { s with taskQueueAvailableSize := s.taskQueueAvailableSize - 1 }.setCaller k
      (.notifying task waiting)
  | .notifying task waiting => s.notifyOne k chosen (.unlocking task waiting 0)
  | .unlocking task _ result =>
    { s with lock := none, log := s.log ++ [PoolEvent.returned k task result] }.setCaller k .outside

/-- The thread has run to its end. -/
def hasExited (i : Nat) : Bool :=
  if h : i < n then
    match s.workers ⟨i, h⟩ with
    | .exited => true
    | _ => false
  else false

/-- The next step of the destructor. -/
def destructorStep : ThreadPool τ n :=
  match s.destructor with
  | .alive => { s with shutdown := immediateShutdown, destructor := .notifying }
  | .notifying => { s.wake fun _ => true with destructor := .joining 0 }
  | .joining i => if s.hasExited i then { s with destructor := .joining (i + 1) } else s

end ThreadPool

/-- Which thread moves. -/
inductive ThreadPoolAction (τ : Type*) (n : Nat) where
  /-- thread `k` calls `add_task` -/
  | addTask (k : Nat) (task : τ)
  | caller (k : Nat) (chosen : Option (Fin n))
  | worker (i : Fin n)
  /-- `wait` returns though nobody has notified -/
  | spurious (i : Fin n)
  | destructor

/-- One step. -/
def threadPoolStep {τ : Type*} {n : Nat} (s : ThreadPool τ n) :
    ThreadPoolAction τ n → Except Fault (ThreadPool τ n)
  | .addTask k task =>
    match s.callers k with
    | .outside => .ok (s.setCaller k (.locking task))
    | _ => .ok s
  | .caller k chosen => .ok (s.callerStep k chosen)
  | .worker i => s.workerStep i
  | .spurious i => .ok (s.wake fun j => decide (j = i))
  | .destructor => .ok s.destructorStep

/-! ## What every run keeps -/

namespace ThreadPool

variable {τ : Type*} {n : Nat} {s s' : ThreadPool τ n} {i : Fin n} {k : Nat} {pc : WorkerPc τ}
  {cpc : CallerPc τ}

/-- The thread is at a place where it has the lock. -/
def inside (s : ThreadPool τ n) : PoolThread n → Bool
  | .worker i => (s.workers i).holds
  | .caller k => (s.callers k).holds

/-- What a worker relies on at its place. -/
def Relies (s : ThreadPool τ n) : WorkerPc τ → Prop
  | .deciding => s.taskQueue ≠ [] ∨ s.shutdown ≠ 0
  | .grabbing => s.taskQueue ≠ []
  | _ => True

structure PoolOk (s : ThreadPool τ n) : Prop where
  owns : Mutex.Owns s.lock s.inside
  shutdown : s.shutdown = 0 ∨ s.shutdown = immediateShutdown
  relies : ∀ i, s.Relies (s.workers i)

theorem inside_worker (hworkers : s'.workers = Function.update s.workers i pc)
    (hcallers : s'.callers = s.callers) :
    s'.inside = Function.update s.inside (.worker i) pc.holds := by
  funext x
  cases x with
  | worker j =>
    by_cases hji : j = i
    · subst hji
      simp [inside, hworkers]
    · have hne : PoolThread.worker j ≠ .worker i := fun h => hji (PoolThread.worker.inj h)
      simp [inside, hworkers, Function.update_of_ne hji, Function.update_of_ne hne]
  | caller k => simp [inside, hcallers]

theorem inside_caller (hcallers : s'.callers = Function.update s.callers k cpc)
    (hworkers : s'.workers = s.workers) :
    s'.inside = Function.update s.inside (.caller k) cpc.holds := by
  funext x
  cases x with
  | worker j => simp [inside, hworkers]
  | caller j =>
    by_cases hjk : j = k
    · subst hjk
      simp [inside, hcallers]
    · have hne : PoolThread.caller j ≠ (.caller k : PoolThread n) :=
        fun h => hjk (PoolThread.caller.inj h)
      simp [inside, hcallers, Function.update_of_ne hjk, Function.update_of_ne hne]

/-- A worker that has not got the lock relies on nothing. -/
theorem relies_of_outside (h : pc.holds = false) : s.Relies pc := by
  cases pc <;> trivial

theorem Relies.mono (h : s.Relies pc) (hqueue : s'.taskQueue = s.taskQueue)
    (hshutdown : s.shutdown ≠ 0 → s'.shutdown ≠ 0) : s'.Relies pc := by
  cases pc with
  | deciding => exact h.imp (fun hne => hqueue ▸ hne) hshutdown
  | grabbing =>
    unfold Relies at h ⊢
    rwa [hqueue]
  | _ => trivial

/-- What the others rely on stays, since the tasks change only in the hands of the owner. -/
theorem PoolOk.relies_other (h : PoolOk s) {x : PoolThread n}
    (hqueue : s'.taskQueue = s.taskQueue ∨ s.inside x)
    (hshutdown : s.shutdown ≠ 0 → s'.shutdown ≠ 0) (hi : .worker i ≠ x) :
    s'.Relies (s.workers i) := by
  rcases hqueue with hsame | hinside
  · exact (h.relies i).mono hsame hshutdown
  · exact relies_of_outside (h.owns.alone hinside hi)

theorem PoolOk.moveWorker (h : PoolOk s) (i : Fin n) (pc : WorkerPc τ)
    (hworkers : s'.workers = Function.update s.workers i pc) (hcallers : s'.callers = s.callers)
    (hlock : s'.lock = if pc.holds then some (.worker i)
      else if s.inside (.worker i) then none else s.lock)
    (hfree : pc.holds = true → s.inside (.worker i) = false → s.lock = none)
    (hshutdown : s'.shutdown = s.shutdown)
    (hqueue : s'.taskQueue = s.taskQueue ∨ s.inside (.worker i)) (hrelies : s'.Relies pc) :
    PoolOk s' := by
  constructor
  case owns =>
    rw [hlock, inside_worker hworkers hcallers]
    exact h.owns.move _ _ hfree
  case shutdown =>
    rw [hshutdown]
    exact h.shutdown
  case relies =>
    intro j
    rw [hworkers]
    by_cases hji : j = i
    · rw [hji, Function.update_self]
      exact hrelies
    · rw [Function.update_of_ne hji]
      exact h.relies_other hqueue (fun hne => hshutdown ▸ hne)
        fun heq => hji (PoolThread.worker.inj heq)

theorem PoolOk.moveCaller (h : PoolOk s) (k : Nat) (pc : CallerPc τ)
    (hcallers : s'.callers = Function.update s.callers k pc) (hworkers : s'.workers = s.workers)
    (hlock : s'.lock = if pc.holds then some (.caller k)
      else if s.inside (.caller k) then none else s.lock)
    (hfree : pc.holds = true → s.inside (.caller k) = false → s.lock = none)
    (hshutdown : s'.shutdown = s.shutdown)
    (hqueue : s'.taskQueue = s.taskQueue ∨ s.inside (.caller k)) : PoolOk s' := by
  constructor
  case owns =>
    rw [hlock, inside_caller hcallers hworkers]
    exact h.owns.move _ _ hfree
  case shutdown =>
    rw [hshutdown]
    exact h.shutdown
  case relies =>
    intro j
    rw [hworkers]
    exact h.relies_other hqueue (fun hne => hshutdown ▸ hne) fun heq => nomatch heq

/-- Workers are woken: neither asleep nor woken has a worker the lock. -/
theorem PoolOk.wake (h : PoolOk s) (p : Fin n → Bool) : PoolOk (s.wake p) := by
  have hholds : ∀ i, ((s.wake p).workers i).holds = (s.workers i).holds := by
    intro i
    change (if p i && (s.workers i).isAsleep then WorkerPc.woken else s.workers i).holds = _
    cases s.workers i <;> cases p i <;> rfl
  constructor
  case owns =>
    intro x
    cases x with
    | worker i =>
      rw [inside, hholds]
      exact h.owns (.worker i)
    | caller k => exact h.owns (.caller k)
  case shutdown => exact h.shutdown
  case relies =>
    intro i
    change s.Relies (if p i && (s.workers i).isAsleep then WorkerPc.woken else s.workers i)
    split
    · trivial
    · exact h.relies i

/-- A worker goes on while it has the lock. -/
theorem PoolOk.workerGoesOn (h : PoolOk s) (i : Fin n) (pc : WorkerPc τ)
    (hin : s.inside (.worker i) = true) (hpc : pc.holds = true)
    (hworkers : s'.workers = Function.update s.workers i pc) (hcallers : s'.callers = s.callers)
    (hlock : s'.lock = s.lock) (hshutdown : s'.shutdown = s.shutdown) (hrelies : s'.Relies pc) :
    PoolOk s' := by
  refine h.moveWorker i pc hworkers hcallers ?_ ?_ hshutdown (.inr hin) hrelies
  · rw [if_pos hpc, hlock]
    exact (h.owns _).mpr hin
  · exact fun _ hout => absurd hin (by rw [hout]; exact Bool.false_ne_true)

/-- A worker releases the lock. -/
theorem PoolOk.workerLeaves (h : PoolOk s) (i : Fin n) (pc : WorkerPc τ)
    (hin : s.inside (.worker i) = true) (hpc : pc.holds = false) :
    PoolOk ({ s with lock := none }.setWorker i pc) := by
  refine h.moveWorker i pc rfl rfl ?_ ?_ rfl (.inl rfl) (relies_of_outside hpc)
  · rw [if_neg (by rw [hpc]; exact Bool.false_ne_true), if_pos hin]
    rfl
  · exact fun htrue _ => absurd htrue (by rw [hpc]; exact Bool.false_ne_true)

/-- **Worker step**: it does not fail. -/
theorem PoolOk.workerStep (h : PoolOk s) (i : Fin n) :
    ∃ t, s.workerStep i = .ok t ∧ PoolOk t := by
  have hacquire : PoolOk (if s.lock = none then
      { s with lock := some (.worker i) }.setWorker i .testing else s) := by
    split
    · rename_i hfree
      exact h.moveWorker i .testing rfl rfl rfl (fun _ _ => hfree) rfl (.inl rfl) trivial
    · exact h
  have hrelies := h.relies i
  have hinside : s.inside (.worker i) = (s.workers i).holds := rfl
  unfold ThreadPool.workerStep
  cases hpc : s.workers i with
  | locking => exact ⟨_, rfl, hacquire⟩
  | woken => exact ⟨_, rfl, hacquire⟩
  | asleep => exact ⟨_, rfl, h⟩
  | exited => exact ⟨_, rfl, h⟩
  | testing =>
    rw [hpc] at hinside
    refine ⟨_, rfl, ?_⟩
    split
    · exact h.workerGoesOn i .toSleep hinside rfl rfl rfl rfl rfl trivial
    · rename_i hcond
      -- the loop is left when there is a task or the pool is shut down
      have hdecide : s.taskQueue ≠ [] ∨ s.shutdown ≠ 0 := by
        rw [List.length_eq_zero_iff, not_and_or] at hcond
        exact hcond
      exact h.workerGoesOn i .deciding hinside rfl rfl rfl rfl rfl hdecide
  | toSleep =>
    rw [hpc] at hinside
    exact ⟨_, rfl, h.workerLeaves i .asleep hinside rfl⟩
  | deciding =>
    rw [hpc] at hinside hrelies
    refine ⟨_, rfl, ?_⟩
    split
    · exact h.workerGoesOn i .breaking hinside rfl rfl rfl rfl rfl trivial
    · rename_i hcond
      -- `shutdown` is 0 here, so it was for a task that the loop was left
      have hzero : s.shutdown = 0 := h.shutdown.resolve_right fun heq => hcond (.inl heq)
      have htask : s.taskQueue ≠ [] := hrelies.resolve_right fun hne => hne hzero
      exact h.workerGoesOn i .grabbing hinside rfl rfl rfl rfl rfl htask
  | grabbing =>
    rw [hpc] at hinside hrelies
    cases hqueue : s.taskQueue with
    | nil => exact absurd hqueue hrelies
    | cons task rest =>
      exact ⟨_, rfl, h.workerGoesOn i (.counting task) hinside rfl rfl rfl rfl rfl trivial⟩
  | counting task =>
    rw [hpc] at hinside
    exact ⟨_, rfl, h.workerGoesOn i (.releasing task) hinside rfl rfl rfl rfl rfl trivial⟩
  | releasing task =>
    rw [hpc] at hinside
    exact ⟨_, rfl, h.workerLeaves i (.working task) hinside rfl⟩
  | working task =>
    -- between two rounds of the outer loop the worker is without the lock
    rw [hpc] at hinside
    refine ⟨_, rfl, h.moveWorker i .locking rfl rfl ?_ (fun hin => nomatch hin) rfl (.inl rfl)
      trivial⟩
    rw [hinside]
    rfl
  | breaking =>
    rw [hpc] at hinside
    exact ⟨_, rfl, h.workerLeaves i .exited hinside rfl⟩

/-- A thread goes on in `add_task` while it has the lock. -/
theorem PoolOk.callerGoesOn (h : PoolOk s) (k : Nat) (pc : CallerPc τ)
    (hin : s.inside (.caller k) = true) (hpc : pc.holds = true)
    (hcallers : s'.callers = Function.update s.callers k pc) (hworkers : s'.workers = s.workers)
    (hlock : s'.lock = s.lock) (hshutdown : s'.shutdown = s.shutdown) : PoolOk s' := by
  refine h.moveCaller k pc hcallers hworkers ?_ ?_ hshutdown (.inr hin)
  · rw [if_pos hpc, hlock]
    exact (h.owns _).mpr hin
  · exact fun _ hout => absurd hin (by rw [hout]; exact Bool.false_ne_true)

/-- `notify_one` is no step, or it wakes a worker, or there is none to wake. -/
theorem notifyOne_cases (s : ThreadPool τ n) (k : Nat) (chosen : Option (Fin n)) (pc : CallerPc τ) :
    s.notifyOne k chosen pc = s ∨ (∃ p, s.notifyOne k chosen pc = (s.wake p).setCaller k pc) ∨
      s.notifyOne k chosen pc = s.setCaller k pc := by
  unfold notifyOne
  split
  · split
    · exact .inr (.inl ⟨_, rfl⟩)
    · exact .inl rfl
  · split
    · exact .inr (.inr rfl)
    · exact .inl rfl

/-- **Caller step**. -/
theorem PoolOk.callerStep (h : PoolOk s) (k : Nat) (chosen : Option (Fin n)) :
    PoolOk (s.callerStep k chosen) := by
  have hinside : s.inside (.caller k) = (s.callers k).holds := rfl
  unfold ThreadPool.callerStep
  cases hpc : s.callers k with
  | outside => exact h
  | locking task =>
    dsimp only
    split
    · rename_i hfree
      exact h.moveCaller k (.testing task) rfl rfl rfl (fun _ _ => hfree) rfl (.inl rfl)
    · exact h
  | testing task =>
    rw [hpc] at hinside
    dsimp only
    split
    · exact h.callerGoesOn k (.pushing task s.taskQueue.length) hinside rfl rfl rfl rfl rfl
    · exact h.callerGoesOn k (.unlocking task s.taskQueue.length (-1)) hinside rfl rfl rfl rfl rfl
  | pushing task waiting =>
    rw [hpc] at hinside
    exact h.callerGoesOn k (.counting task waiting) hinside rfl rfl rfl rfl rfl
  | counting task waiting =>
    rw [hpc] at hinside
    exact h.callerGoesOn k (.notifying task waiting) hinside rfl rfl rfl rfl rfl
  | notifying task waiting =>
    rw [hpc] at hinside
    dsimp only
    rcases s.notifyOne_cases k chosen (.unlocking task waiting 0) with heq | ⟨p, heq⟩ | heq
    · rw [heq]
      exact h
    · rw [heq]
      exact (h.wake p).callerGoesOn k (.unlocking task waiting 0) hinside rfl rfl rfl rfl rfl
    · rw [heq]
      exact h.callerGoesOn k (.unlocking task waiting 0) hinside rfl rfl rfl rfl rfl
  | unlocking task waiting result =>
    rw [hpc] at hinside
    refine h.moveCaller k .outside rfl rfl ?_ (fun hin => nomatch hin) rfl (.inl rfl)
    rw [hinside]
    rfl

/-- **Destructor step**. -/
theorem PoolOk.destructorStep (h : PoolOk s) : PoolOk s.destructorStep := by
  unfold ThreadPool.destructorStep
  split
  -- a worker that was let through by a task still is, now that `shutdown` is set
  · refine ⟨h.owns, .inr rfl, fun i => (h.relies i).mono rfl fun _ => ?_⟩
    change immediateShutdown ≠ 0
    decide
  · exact ⟨(h.wake fun _ => true).owns, h.shutdown, (h.wake fun _ => true).relies⟩
  · split
    · exact ⟨h.owns, h.shutdown, h.relies⟩
    · exact h

/-- **Step**: no step fails. -/
theorem PoolOk.step (h : PoolOk s) (a : ThreadPoolAction τ n) :
    ∃ t, threadPoolStep s a = .ok t ∧ PoolOk t := by
  cases a with
  | addTask k task =>
    have hinside : s.inside (.caller k) = (s.callers k).holds := rfl
    simp only [threadPoolStep]
    split
    · rename_i hpc
      rw [hpc] at hinside
      refine ⟨_, rfl, h.moveCaller k (.locking task) rfl rfl ?_ (fun hin => nomatch hin) rfl
        (.inl rfl)⟩
      rw [hinside]
      rfl
    · exact ⟨s, rfl, h⟩
  | caller k chosen => exact ⟨_, rfl, h.callerStep k chosen⟩
  | worker i => exact h.workerStep i
  | spurious i => exact ⟨_, rfl, h.wake _⟩
  | destructor => exact ⟨_, rfl, h.destructorStep⟩

theorem poolOk_init (queueSize : Int) : PoolOk (init queueSize : ThreadPool τ n) where
  owns := by
    intro x
    cases x <;> exact ⟨fun h => (nomatch h), fun h => nomatch h⟩
  shutdown := .inl rfl
  relies := fun _ => trivial

end ThreadPool

end Sails.Base
