import Sails.Base.ThreadPool

/-!
# What a thread pool does with its tasks

- `Accounts`: the counter, the queue and the log agree, up to what the owner of the lock has changed
  already
- `AddTask.events`: what one call of `add_task` does
- `tasks_delivered`: in every run the counter is the room that is left, each call of `add_task`
  answers as the queue was, and the tasks are taken in the order in which they were accepted
-/

namespace Sails.Base

open TransitionRun

variable {τ : Type*} {n : Nat}

/-! ## What the log says -/

/-- The task that was accepted. -/
def PoolEvent.accepted? : PoolEvent τ → Option τ
  | .accepted _ task => some task
  | _ => none

/-- The worker and the task it has taken. -/
def PoolEvent.taken? : PoolEvent τ → Option (Nat × τ)
  | .taken i task => some (i, task)
  | _ => none

/-- The thread whose call of `add_task` the event belongs to. -/
def PoolEvent.caller? : PoolEvent τ → Option Nat
  | .tested k .. | .accepted k _ | .returned k .. => some k
  | .taken .. => none

/-- A call of `add_task`, and the number of tasks it has found waiting. -/
structure AddTask (τ : Type*) where
  task : τ
  waiting : Nat

/-- What a call does: with room for the task it is accepted and the result is 0, else the
result is -1. -/
def AddTask.events (queueSize k : Nat) (c : AddTask τ) : List (PoolEvent τ) :=
  if c.waiting < queueSize then
    [.tested k c.task c.waiting, .accepted k c.task, .returned k c.task 0]
  else [.tested k c.task c.waiting, .returned k c.task (-1)]

/-- What a call has done so far. -/
def CallerPc.events (k : Nat) : CallerPc τ → List (PoolEvent τ)
  | .outside | .locking _ | .testing _ => []
  | .pushing task waiting => [.tested k task waiting]
  | .counting task waiting | .notifying task waiting =>
    [.tested k task waiting, .accepted k task]
  | .unlocking task waiting result =>
    if result = 0 then [.tested k task waiting, .accepted k task] else [.tested k task waiting]

namespace ThreadPool

/-- The tasks accepted, in order. -/
def acceptedOf (log : List (PoolEvent τ)) : List τ := log.filterMap PoolEvent.accepted?

/-- The tasks taken, in order, each with the worker that has taken it. -/
def takenOf (log : List (PoolEvent τ)) : List (Nat × τ) := log.filterMap PoolEvent.taken?

/-- The events of the calls of thread `k`. -/
def eventsOf (k : Nat) (log : List (PoolEvent τ)) : List (PoolEvent τ) :=
  log.filter fun e => decide (e.caller? = some k)

/-- The log has the calls of thread `k`, then what its present one has done so far; a call has found
at most `queueSize` tasks waiting, and is refused when it has found so many. -/
def CallsOf (queueSize k : Nat) (log : List (PoolEvent τ)) (pc : CallerPc τ) : Prop :=
  ∃ calls : List (AddTask τ), (∀ c ∈ calls, c.waiting ≤ queueSize) ∧
    eventsOf k log = calls.flatMap (AddTask.events queueSize k) ++ pc.events k

/-- What `add_task` has promised. -/
structure Delivers (queueSize : Nat) (s : ThreadPool τ n) : Prop where
  /-- outside the lock the counter is the room that is left -/
  room : s.lock = none → s.taskQueue.length + s.taskQueueAvailableSize = queueSize
  /-- the first tasks accepted have been taken, the first one first, and the others are waiting -/
  order : (takenOf s.log).map Prod.snd ++ s.taskQueue = acceptedOf s.log
  calls : ∀ k, CallsOf queueSize k s.log (s.callers k)

end ThreadPool

/-! ## What every run keeps -/

/-- What the worker has taken out of the queue and not counted. -/
def WorkerPc.imbalance : WorkerPc τ → Int
  | .counting _ => -1
  | _ => 0

/-- What the thread has put into the queue and not counted. -/
def CallerPc.imbalance : CallerPc τ → Int
  | .counting .. => 1
  | _ => 0

/-- What a call relies on at its place. -/
def CallerPc.Fits (queueSize : Nat) (available : Int) : CallerPc τ → Prop
  | .pushing _ waiting | .counting _ waiting => waiting < queueSize ∧ 0 < available
  | .notifying _ waiting => waiting < queueSize
  | .unlocking _ waiting result =>
    waiting < queueSize ∧ result = 0 ∨ waiting = queueSize ∧ result = -1
  | _ => True

namespace ThreadPool

variable {queueSize : Nat} {s s' : ThreadPool τ n} {i : Fin n} {k : Nat} {pc : WorkerPc τ}
  {cpc : CallerPc τ}

/-- What a thread has not counted. -/
def uncounted (s : ThreadPool τ n) : PoolThread n → Int
  | .worker i => (s.workers i).imbalance
  | .caller k => (s.callers k).imbalance

/-- What the owner of the lock has not counted. -/
def imbalance (s : ThreadPool τ n) : Int :=
  match s.lock with
  | none => 0
  | some x => s.uncounted x

structure Accounts (queueSize : Nat) (s : ThreadPool τ n) : Prop where
  balance : s.taskQueue.length + s.taskQueueAvailableSize = queueSize + s.imbalance
  available_nonneg : 0 ≤ s.taskQueueAvailableSize
  fits : ∀ k, (s.callers k).Fits queueSize s.taskQueueAvailableSize
  order : (takenOf s.log).map Prod.snd ++ s.taskQueue = acceptedOf s.log
  calls : ∀ k, CallsOf queueSize k s.log (s.callers k)

theorem Accounts.delivers (h : Accounts queueSize s) : Delivers queueSize s where
  room := by
    intro hfree
    have hbalance := h.balance
    rw [imbalance, hfree, Int.add_zero] at hbalance
    exact hbalance
  order := h.order
  calls := h.calls

theorem accounts_init (queueSize : Nat) : Accounts queueSize (init queueSize : ThreadPool τ n) where
  balance := by simp [imbalance, init]
  available_nonneg := Int.natCast_nonneg queueSize
  fits := fun _ => trivial
  order := rfl
  calls := fun _ => ⟨[], fun _ h => (nomatch h), rfl⟩

/-! ### What is not counted -/

theorem imbalance_eq {x : PoolThread n} (h : s.lock = some x) : s.imbalance = s.uncounted x := by
  rw [imbalance, h]

theorem imbalance_worker (hlock : s'.lock = some (.worker i))
    (hworkers : s'.workers = Function.update s.workers i pc) : s'.imbalance = pc.imbalance := by
  rw [imbalance_eq hlock, uncounted, hworkers, Function.update_self]

theorem imbalance_caller (hlock : s'.lock = some (.caller k))
    (hcallers : s'.callers = Function.update s.callers k cpc) :
    s'.imbalance = cpc.imbalance := by
  rw [imbalance_eq hlock, uncounted, hcallers, Function.update_self]

theorem uncounted_worker (hworkers : s'.workers = Function.update s.workers i pc)
    (hcallers : s'.callers = s.callers) (hpc : pc.imbalance = (s.workers i).imbalance) :
    s'.uncounted = s.uncounted := by
  funext x
  cases x with
  | worker j =>
    by_cases hji : j = i
    · subst hji
      rw [uncounted, uncounted, hworkers, Function.update_self, hpc]
    · rw [uncounted, uncounted, hworkers, Function.update_of_ne hji]
  | caller k => rw [uncounted, uncounted, hcallers]

theorem uncounted_caller (hcallers : s'.callers = Function.update s.callers k cpc)
    (hworkers : s'.workers = s.workers) (hpc : cpc.imbalance = (s.callers k).imbalance) :
    s'.uncounted = s.uncounted := by
  funext x
  cases x with
  | worker j => rw [uncounted, uncounted, hworkers]
  | caller j =>
    by_cases hjk : j = k
    · subst hjk
      rw [uncounted, uncounted, hcallers, Function.update_self, hpc]
    · rw [uncounted, uncounted, hcallers, Function.update_of_ne hjk]

/-- The lock stays where it is, or a thread that owes nothing takes or releases it. -/
theorem imbalance_same {x : PoolThread n} (huncounted : s'.uncounted = s.uncounted)
    (hlock : s'.lock = s.lock ∨ s.lock = none ∧ s'.lock = some x ∨
      s.lock = some x ∧ s'.lock = none)
    (hx : s.uncounted x = 0) : s'.imbalance = s.imbalance := by
  unfold imbalance
  rcases hlock with hsame | ⟨hold, hnew⟩ | ⟨hold, hnew⟩
  · rw [hsame, huncounted]
  · rw [hold, hnew, huncounted]
    exact hx
  · rw [hold, hnew]
    exact hx.symm

/-! ### Steps -/

/-- Nothing happens to the queue, the counter and the calls. -/
theorem Accounts.quiet (h : Accounts queueSize s) (himbalance : s'.imbalance = s.imbalance)
    (hqueue : s'.taskQueue = s.taskQueue)
    (havailable : s'.taskQueueAvailableSize = s.taskQueueAvailableSize)
    (hcallers : s'.callers = s.callers) (hlog : s'.log = s.log) : Accounts queueSize s' where
  balance := by
    rw [hqueue, havailable, himbalance]
    exact h.balance
  available_nonneg := havailable ▸ h.available_nonneg
  fits := by
    rw [havailable, hcallers]
    exact h.fits
  order := by
    rw [hqueue, hlog]
    exact h.order
  calls := by
    rw [hcallers, hlog]
    exact h.calls

/-- A call that has not got the lock relies on nothing. -/
theorem fits_of_outside (hout : s.inside (.caller k) = false) (available : Int) :
    (s.callers k).Fits queueSize available := by
  unfold inside at hout
  cases hpc : s.callers k with
  | outside => trivial
  | locking => trivial
  | _ => exact nomatch hout.symm.trans (congrArg CallerPc.holds hpc)

/-- While a worker has the lock, the calls have nothing to do with it. -/
theorem Accounts.ofWorker (h : Accounts queueSize s) (hok : PoolOk s)
    (hin : s.inside (.worker i) = true) (hlock : s'.lock = s.lock)
    (hworkers : s'.workers = Function.update s.workers i pc) (hcallers : s'.callers = s.callers)
    (hbalance : s'.taskQueue.length + s'.taskQueueAvailableSize = queueSize + pc.imbalance)
    (havailable : s.taskQueueAvailableSize ≤ s'.taskQueueAvailableSize)
    (horder : (takenOf s'.log).map Prod.snd ++ s'.taskQueue = acceptedOf s'.log)
    (hevents : ∀ k, eventsOf k s'.log = eventsOf k s.log) : Accounts queueSize s' where
  balance := by
    rw [imbalance_worker (hlock.trans ((hok.owns _).mpr hin)) hworkers]
    exact hbalance
  available_nonneg := Int.le_trans h.available_nonneg havailable
  fits := by
    intro k
    rw [hcallers]
    exact fits_of_outside (hok.owns.alone hin fun heq => nomatch heq) _
  order := horder
  calls := by
    intro k
    unfold CallsOf
    rw [hcallers, hevents]
    exact h.calls k

/-- **Worker step**. -/
theorem Accounts.workerStep (h : Accounts queueSize s) (hok : PoolOk s) {i : Fin n}
    (hstep : s.workerStep i = .ok s') : Accounts queueSize s' := by
  have hinside : s.inside (.worker i) = (s.workers i).holds := rfl
  have howns := (hok.owns (.worker i)).mpr
  have huncounted : s.uncounted (.worker i) = (s.workers i).imbalance := rfl
  -- a step between two places at which everything is counted
  have hmove : ∀ pc : WorkerPc τ, pc.imbalance = 0 → (s.workers i).imbalance = 0 →
      s'.workers = Function.update s.workers i pc → s'.callers = s.callers →
      (s'.lock = s.lock ∨ s.lock = none ∧ s'.lock = some (.worker i) ∨
        s.lock = some (.worker i) ∧ s'.lock = none) →
      s'.taskQueue = s.taskQueue → s'.taskQueueAvailableSize = s.taskQueueAvailableSize →
      s'.log = s.log → Accounts queueSize s' := by
    intro pc hpc hzero hworkers hcallers hlock hqueue havailable hlog
    have hsame := uncounted_worker hworkers hcallers (hpc.trans hzero.symm)
    exact h.quiet (imbalance_same hsame hlock hzero) hqueue havailable hcallers hlog
  have hacquire : (s.workers i).imbalance = 0 → s' = (if s.lock = none then
      { s with lock := some (.worker i) }.setWorker i .testing else s) → Accounts queueSize s' := by
    intro hzero heq
    split at heq
    · rename_i hfree
      subst heq
      exact hmove .testing rfl hzero rfl rfl (.inr (.inl ⟨hfree, rfl⟩)) rfl rfl rfl
    · exact heq ▸ h
  unfold ThreadPool.workerStep at hstep
  cases hpc : s.workers i with
  | locking =>
    rw [hpc] at hstep hacquire
    exact hacquire rfl (Except.ok.inj hstep).symm
  | woken =>
    rw [hpc] at hstep hacquire
    exact hacquire rfl (Except.ok.inj hstep).symm
  | asleep =>
    rw [hpc] at hstep
    exact Except.ok.inj hstep ▸ h
  | exited =>
    rw [hpc] at hstep
    exact Except.ok.inj hstep ▸ h
  | testing =>
    rw [hpc] at hstep hmove
    cases hstep
    refine hmove _ ?_ rfl rfl rfl (.inl rfl) rfl rfl rfl
    split <;> rfl
  | deciding =>
    rw [hpc] at hstep hmove
    cases hstep
    refine hmove _ ?_ rfl rfl rfl (.inl rfl) rfl rfl rfl
    split <;> rfl
  | toSleep =>
    rw [hpc] at hstep hmove hinside
    cases hstep
    exact hmove .asleep rfl rfl rfl rfl (.inr (.inr ⟨howns hinside, rfl⟩)) rfl rfl rfl
  | breaking =>
    rw [hpc] at hstep hmove hinside
    cases hstep
    exact hmove .exited rfl rfl rfl rfl (.inr (.inr ⟨howns hinside, rfl⟩)) rfl rfl rfl
  | releasing task =>
    rw [hpc] at hstep hmove hinside
    cases hstep
    exact hmove (.working task) rfl rfl rfl rfl (.inr (.inr ⟨howns hinside, rfl⟩)) rfl rfl rfl
  | working task =>
    rw [hpc] at hstep hmove
    cases hstep
    exact hmove .locking rfl rfl rfl rfl (.inl rfl) rfl rfl rfl
  | grabbing =>
    rw [hpc] at hstep hinside huncounted
    have hbalance := h.balance
    rw [imbalance_eq (howns hinside), huncounted] at hbalance
    have horder := h.order
    cases hqueue : s.taskQueue with
    | nil =>
      rw [hqueue] at hstep
      exact nomatch hstep
    | cons task rest =>
      rw [hqueue] at hstep hbalance horder
      cases hstep
      refine h.ofWorker hok hinside rfl rfl rfl ?_ (Int.le_refl _) ?_ ?_
      -- a task less is waiting, and the counter does not say so yet
      · simp only [setWorker, WorkerPc.imbalance, List.length_cons] at hbalance ⊢
        omega
      · simpa [setWorker, takenOf, acceptedOf, PoolEvent.taken?, PoolEvent.accepted?,
          List.filterMap_cons] using horder
      · intro k
        simp [setWorker, eventsOf, PoolEvent.caller?]
  | counting task =>
    rw [hpc] at hstep hinside huncounted
    have hbalance := h.balance
    rw [imbalance_eq (howns hinside), huncounted] at hbalance
    cases hstep
    refine h.ofWorker hok hinside rfl rfl rfl ?_ ?_ h.order fun _ => rfl
    · simp only [setWorker, WorkerPc.imbalance] at hbalance ⊢
      omega
    · simp only [setWorker]
      omega

/-! ### The calls of a thread -/

/-- An event by which no task comes or goes. -/
theorem order_append {log : List (PoolEvent τ)} {queue : List τ} {e : PoolEvent τ}
    (h : (takenOf log).map Prod.snd ++ queue = acceptedOf log) (htaken : e.taken? = none)
    (haccepted : e.accepted? = none) :
    (takenOf (log ++ [e])).map Prod.snd ++ queue = acceptedOf (log ++ [e]) := by
  have htakenOf : takenOf (log ++ [e]) = takenOf log := by simp [takenOf, htaken]
  have hacceptedOf : acceptedOf (log ++ [e]) = acceptedOf log := by simp [acceptedOf, haccepted]
  rw [htakenOf, hacceptedOf, h]

theorem eventsOf_own {e : PoolEvent τ} (h : e.caller? = some k) (log : List (PoolEvent τ)) :
    eventsOf k (log ++ [e]) = eventsOf k log ++ [e] := by
  simp [eventsOf, h]

theorem eventsOf_other {e : PoolEvent τ} {j : Nat} (h : e.caller? = some k) (hj : j ≠ k)
    (log : List (PoolEvent τ)) : eventsOf j (log ++ [e]) = eventsOf j log := by
  simp [eventsOf, h, hj.symm]

theorem CallsOf.goesOn {log : List (PoolEvent τ)} {e : PoolEvent τ}
    (h : CallsOf queueSize k log cpc) (he : e.caller? = some k) {cpc' : CallerPc τ}
    (hevents : cpc'.events k = cpc.events k ++ [e]) :
    CallsOf queueSize k (log ++ [e]) cpc' := by
  obtain ⟨calls, hwaiting, hcalls⟩ := h
  refine ⟨calls, hwaiting, ?_⟩
  rw [eventsOf_own he, hcalls, hevents, List.append_assoc]

/-- The present call becomes one of those made. -/
theorem CallsOf.returns {log : List (PoolEvent τ)} {task : τ} {waiting : Nat}
    {result available : Int} (h : CallsOf queueSize k log (.unlocking task waiting result))
    (hfits : (CallerPc.unlocking task waiting result).Fits queueSize available) :
    CallsOf queueSize k (log ++ [.returned k task result]) .outside := by
  obtain ⟨calls, hwaiting, hcalls⟩ := h
  refine ⟨calls ++ [⟨task, waiting⟩], ?_, ?_⟩
  · intro c hc
    rcases List.mem_append.mp hc with hold | hnew
    · exact hwaiting c hold
    · rw [List.mem_singleton.mp hnew]
      rcases hfits with ⟨hlt, -⟩ | ⟨heq, -⟩
      · exact Nat.le_of_lt hlt
      · exact Nat.le_of_eq heq
  · rw [eventsOf_own rfl, hcalls, List.flatMap_append]
    rcases hfits with ⟨hlt, rfl⟩ | ⟨heq, rfl⟩
    · simp [AddTask.events, CallerPc.events, hlt]
    · simp [AddTask.events, CallerPc.events, heq]

/-! ### Steps of a thread in `add_task` -/

/-- The thread has the lock, so all the other threads are outside. -/
theorem Accounts.ofCaller (h : Accounts queueSize s) (hok : PoolOk s)
    (hin : s.inside (.caller k) = true) (hcallers : s'.callers = Function.update s.callers k cpc)
    (hlock : s'.lock = s.lock ∨ s'.lock = none ∧ cpc.imbalance = 0)
    (hbalance : s'.taskQueue.length + s'.taskQueueAvailableSize = queueSize + cpc.imbalance)
    (hnonneg : 0 ≤ s'.taskQueueAvailableSize) (hfits : cpc.Fits queueSize s'.taskQueueAvailableSize)
    (horder : (takenOf s'.log).map Prod.snd ++ s'.taskQueue = acceptedOf s'.log)
    (hown : CallsOf queueSize k s'.log cpc)
    (hother : ∀ j, j ≠ k → eventsOf j s'.log = eventsOf j s.log) : Accounts queueSize s' where
  balance := by
    rcases hlock with hsame | ⟨hfree, hzero⟩
    · rw [imbalance_caller (hsame.trans ((hok.owns _).mpr hin)) hcallers]
      exact hbalance
    · rw [imbalance, hfree, ← hzero]
      exact hbalance
  available_nonneg := hnonneg
  fits := by
    intro j
    rw [hcallers]
    by_cases hjk : j = k
    · subst hjk
      rwa [Function.update_self]
    · rw [Function.update_of_ne hjk]
      exact fits_of_outside (hok.owns.alone hin fun heq => hjk (PoolThread.caller.inj heq)) _
  order := horder
  calls := by
    intro j
    rw [hcallers]
    by_cases hjk : j = k
    · subst hjk
      rwa [Function.update_self]
    · unfold CallsOf
      rw [Function.update_of_ne hjk, hother j hjk]
      exact h.calls j

/-- A thread moves, and that is all. -/
theorem Accounts.quietCaller (h : Accounts queueSize s) (himbalance : s'.imbalance = s.imbalance)
    (hcallers : s'.callers = Function.update s.callers k cpc) (hqueue : s'.taskQueue = s.taskQueue)
    (havailable : s'.taskQueueAvailableSize = s.taskQueueAvailableSize) (hlog : s'.log = s.log)
    (hfits : cpc.Fits queueSize s.taskQueueAvailableSize)
    (hevents : cpc.events k = (s.callers k).events k) : Accounts queueSize s' where
  balance := by
    rw [hqueue, havailable, himbalance]
    exact h.balance
  available_nonneg := havailable ▸ h.available_nonneg
  fits := by
    intro j
    rw [hcallers, havailable]
    by_cases hjk : j = k
    · subst hjk
      rwa [Function.update_self]
    · rw [Function.update_of_ne hjk]
      exact h.fits j
  order := by
    rw [hqueue, hlog]
    exact h.order
  calls := by
    intro j
    rw [hcallers, hlog]
    by_cases hjk : j = k
    · subst hjk
      unfold CallsOf
      rw [Function.update_self, hevents]
      exact h.calls j
    · rw [Function.update_of_ne hjk]
      exact h.calls j

/-- Neither a worker asleep nor one woken owes anything. -/
theorem Accounts.wake (h : Accounts queueSize s) (p : Fin n → Bool) :
    Accounts queueSize (s.wake p) := by
  have huncounted : (s.wake p).uncounted = s.uncounted := by
    funext x
    cases x with
    | worker i =>
      change (if p i && (s.workers i).isAsleep then WorkerPc.woken else s.workers i).imbalance = _
      rw [uncounted]
      cases s.workers i <;> cases p i <;> rfl
    | caller k => rfl
  refine h.quiet ?_ rfl rfl rfl rfl
  unfold imbalance
  rw [huncounted]
  rfl

/-- **Caller step**. -/
theorem Accounts.callerStep (h : Accounts queueSize s) (hok : PoolOk s) (k : Nat)
    (chosen : Option (Fin n)) : Accounts queueSize (s.callerStep k chosen) := by
  have hinside : s.inside (.caller k) = (s.callers k).holds := rfl
  have howns := (hok.owns (.caller k)).mpr
  have huncounted : s.uncounted (.caller k) = (s.callers k).imbalance := rfl
  have hfits := h.fits k
  have hcalls := h.calls k
  have hbalance := h.balance
  have horder := h.order
  unfold ThreadPool.callerStep
  cases hpc : s.callers k with
  | outside => exact h
  | locking task =>
    rw [hpc] at huncounted
    dsimp only
    split
    · rename_i hfree
      have hsame : ({ s with lock := some (.caller k) }.setCaller k (.testing task)).uncounted =
          s.uncounted := uncounted_caller rfl rfl huncounted.symm
      refine h.quietCaller (imbalance_same hsame (.inr (.inl ⟨hfree, rfl⟩)) huncounted) rfl rfl rfl
        rfl trivial ?_
      rw [hpc]
      rfl
    · exact h
  | testing task =>
    rw [hpc] at hinside huncounted hcalls
    rw [imbalance_eq (howns hinside), huncounted] at hbalance
    have hnonneg := h.available_nonneg
    simp only [CallerPc.imbalance] at hbalance
    dsimp only
    split
    -- there is room: fewer than `queueSize` tasks are waiting
    · rename_i hroom
      refine h.ofCaller hok hinside rfl (.inl rfl) hbalance hnonneg ⟨by omega, hroom⟩
        (order_append horder rfl rfl) (hcalls.goesOn rfl rfl) fun j hj => eventsOf_other rfl hj _
    · refine h.ofCaller hok hinside rfl (.inl rfl) hbalance hnonneg (.inr ⟨by omega, rfl⟩)
        (order_append horder rfl rfl) (hcalls.goesOn rfl rfl) fun j hj => eventsOf_other rfl hj _
  | pushing task waiting =>
    rw [hpc] at hinside huncounted hcalls hfits
    rw [imbalance_eq (howns hinside), huncounted] at hbalance
    refine h.ofCaller hok hinside rfl (.inl rfl) ?_ h.available_nonneg hfits ?_
      (hcalls.goesOn rfl rfl) (fun j hj => eventsOf_other rfl hj _)
    · simp only [setCaller, CallerPc.imbalance, List.length_append, List.length_singleton]
        at hbalance ⊢
      omega
    · simp only [setCaller, takenOf, acceptedOf, List.filterMap_append] at horder ⊢
      rw [← horder]
      simp [PoolEvent.taken?, PoolEvent.accepted?]
  | counting task waiting =>
    rw [hpc] at hinside huncounted hcalls hfits
    rw [imbalance_eq (howns hinside), huncounted] at hbalance
    obtain ⟨hwaiting, hroom⟩ := hfits
    refine h.ofCaller hok hinside rfl (.inl rfl) ?_ ?_ hwaiting horder hcalls fun j hj => rfl
    · simp only [setCaller, CallerPc.imbalance] at hbalance ⊢
      omega
    · simp only [setCaller]
      omega
  | notifying task waiting =>
    rw [hpc] at hfits huncounted
    -- whoever is woken, the caller goes on to release the lock
    have hgoes : ∀ t : ThreadPool τ n, Accounts queueSize t → t.callers = s.callers →
        Accounts queueSize (t.setCaller k (.unlocking task waiting 0)) := by
      intro t ht hsame
      have hzero : t.uncounted (.caller k) = 0 := by
        rw [uncounted, hsame, hpc]
        rfl
      have huncounted' : (t.setCaller k (.unlocking task waiting 0)).uncounted = t.uncounted :=
        uncounted_caller rfl rfl hzero.symm
      refine ht.quietCaller (imbalance_same huncounted' (.inl rfl) hzero) rfl rfl rfl rfl
        (.inl ⟨hfits, rfl⟩) ?_
      rw [hsame, hpc]
      rfl
    dsimp only
    rcases s.notifyOne_cases k chosen (.unlocking task waiting 0) with heq | ⟨p, heq⟩ | heq
    · rw [heq]
      exact h
    · rw [heq]
      exact hgoes _ (h.wake p) rfl
    · rw [heq]
      exact hgoes _ h rfl
  | unlocking task waiting result =>
    rw [hpc] at hinside huncounted hcalls hfits
    rw [imbalance_eq (howns hinside), huncounted] at hbalance
    refine h.ofCaller hok hinside rfl (.inr ⟨rfl, rfl⟩) hbalance h.available_nonneg trivial
      (order_append horder rfl rfl) (hcalls.returns hfits) fun j hj => eventsOf_other rfl hj _

/-! ### Every run -/

/-- **Step**. -/
theorem Accounts.step (h : Accounts queueSize s) (hok : PoolOk s) {a : ThreadPoolAction τ n}
    (hstep : threadPoolStep s a = .ok s') : Accounts queueSize s' := by
  cases a with
  | addTask k task =>
    simp only [threadPoolStep] at hstep
    split at hstep
    · rename_i hpc
      cases hstep
      have hzero : s.uncounted (.caller k) = 0 := by
        rw [uncounted, hpc]
        rfl
      have huncounted : (s.setCaller k (.locking task)).uncounted = s.uncounted :=
        uncounted_caller rfl rfl hzero.symm
      refine h.quietCaller (imbalance_same huncounted (.inl rfl) hzero) rfl rfl rfl rfl trivial ?_
      rw [hpc]
      rfl
    · cases hstep
      exact h
  | caller k chosen =>
    cases hstep
    exact h.callerStep hok k chosen
  | worker i => exact h.workerStep hok hstep
  | spurious i =>
    cases hstep
    exact h.wake _
  | destructor =>
    cases hstep
    -- the destructor has nothing to do with the tasks
    unfold ThreadPool.destructorStep
    split
    · exact h.quiet rfl rfl rfl rfl rfl
    · exact (h.wake fun _ => true).quiet rfl rfl rfl rfl rfl
    · split
      · exact h.quiet rfl rfl rfl rfl rfl
      · exact h

/-- **Accounting and delivery**: for any number of workers, any `queueSize` and any order of steps,
shutdown included, no step fails; whenever the lock is free the counter is the room that is left, each
call of `add_task` answers as the queue was when it had the lock, and the workers take the accepted
tasks in order, each task once. -/
theorem tasks_delivered (τ : Type*) (n queueSize : Nat) (as : List (ThreadPoolAction τ n)) :
    ∃ t, run threadPoolStep (init queueSize : ThreadPool τ n) as = .ok t ∧ Delivers queueSize t := by
  have hstep : ∀ (s : ThreadPool τ n) (a : ThreadPoolAction τ n),
      PoolOk s ∧ Accounts queueSize s → True →
        ∃ t, threadPoolStep s a = .ok t ∧ PoolOk t ∧ Accounts queueSize t := by
    intro s a hs _
    obtain ⟨t, hok, ht⟩ := hs.1.step a
    exact ⟨t, hok, ht, hs.2.step hs.1 hok⟩
  obtain ⟨t, hrun, ht⟩ := run_ok hstep ⟨poolOk_init queueSize, accounts_init queueSize⟩
    (along_of_forall (p := fun _ => True) fun _ _ => trivial)
  exact ⟨t, hrun, ht.2.delivers⟩

end ThreadPool

end Sails.Base
