import Sails.Base.ThreadPool
import Mathlib.Logic.Relation

/-!
# Shutting a thread pool down

- `Draining`: the pool is shut down and no worker sleeps; from there all the threads run to their
  ends (`Draining.joins`)
- `Stops`: what the destructor relies on once it has executed `notify_all`
- `Overtakes`: the destructor executes `notify_all` while a worker is about to sleep
- `lost_wakeup`: it does, and the worker sleeps while the destructor waits for it
- `shutdown_wakes_iff`: a pool stops in every state of a run exactly when no step of the run overtakes
  a worker
-/

namespace Sails.Base

open TransitionRun

variable {τ : Type*} {n : Nat}

/-- The worker waits on the condition variable, or the next thing it does is wait. -/
def WorkerPc.sleeps : WorkerPc τ → Bool
  | .toSleep | .asleep => true
  | _ => false

/-- How many steps of its own a worker is away from the end of `threadpool_thread` when the pool is
shut down. -/
def WorkerPc.rank : WorkerPc τ → Nat
  | .exited => 0
  | .breaking => 1
  | .deciding => 2
  | .testing => 3
  | .locking | .woken => 4
  | .working _ => 5
  | .releasing _ => 6
  | .counting _ => 7
  | .grabbing => 8
  | .toSleep => 9
  | .asleep => 10

/-- How many steps of its own a thread in `add_task` is away from releasing the lock. -/
def CallerPc.rank : CallerPc τ → Nat
  | .outside | .locking _ => 0
  | .unlocking .. => 1
  | .notifying .. => 2
  | .counting .. => 3
  | .pushing .. => 4
  | .testing _ => 5

/-- A step of one of the threads: no new call of `add_task`, and no return of `wait` without a
notification. -/
def ThreadPoolAction.OfThread : ThreadPoolAction τ n → Prop
  | .addTask .. | .spurious _ => False
  | _ => True

namespace ThreadPool

/-- The destructor has executed `notify_all`. -/
def Notified (s : ThreadPool τ n) : Prop := ∃ i, s.destructor = .joining i

/-- All the joins of the destructor have returned. -/
def Joined (s : ThreadPool τ n) : Prop := ∃ i, s.destructor = .joining i ∧ n ≤ i

/-- The threads can get from `s` to `u`. -/
def Reaches : ThreadPool τ n → ThreadPool τ n → Prop :=
  Relation.ReflTransGen fun s u => ∃ a, ThreadPoolAction.OfThread a ∧ threadPoolStep s a = .ok u

/-- What the destructor relies on after `notify_all`. -/
structure Stops (s : ThreadPool τ n) : Prop where
  awake : ∀ i, (s.workers i).sleeps = false
  joins : ∃ u, s.Reaches u ∧ u.Joined

/-- The destructor executes `notify_all` while a worker is between its test and its sleep. -/
def Overtakes (s : ThreadPool τ n) (a : ThreadPoolAction τ n) : Prop :=
  a = .destructor ∧ s.destructor = .notifying ∧
    ∃ i, (s.workers i).sleeps = true ∧ (s.workers i).isAsleep = false

variable {s t : ThreadPool τ n} {i j : Fin n} {k : Nat}

/-! ## What a step leaves alone -/

theorem wake_of_awake (h : (s.workers i).isAsleep = false) (p : Fin n → Bool) :
    (s.wake p).workers i = s.workers i := by
  change (if p i && (s.workers i).isAsleep then WorkerPc.woken else s.workers i) = s.workers i
  rw [h, Bool.and_false]
  rfl

theorem awake_of_not_sleeps (h : (s.workers i).sleeps = false) :
    (s.workers i).isAsleep = false := by
  cases hpc : s.workers i with
  | asleep => exact nomatch (congrArg WorkerPc.sleeps hpc).symm.trans h
  | _ => rfl

/-- What a step of worker `i` does to the places of the threads. Once the pool is shut down a worker
that does not sleep gets nearer to its end, if it can have the lock. -/
structure WorkerMoves (s : ThreadPool τ n) (i : Fin n) (t : ThreadPool τ n) (pc : WorkerPc τ) :
    Prop where
  workers : t.workers = Function.update s.workers i pc
  shutdown : t.shutdown = s.shutdown
  destructor : t.destructor = s.destructor
  lock : t.lock = s.lock ∨ t.lock = some (.worker i) ∨ t.lock = none
  awake : s.shutdown = immediateShutdown → (s.workers i).sleeps = false → pc.sleeps = false
  nearer : s.shutdown = immediateShutdown → (s.workers i).sleeps = false →
    s.lock = none ∨ (s.workers i).holds = true → 0 < (s.workers i).rank →
    pc.rank < (s.workers i).rank

/-- The worker waits for the lock, or for somebody to wake it, or it has come to its end. -/
theorem WorkerMoves.stays (h : s.shutdown = immediateShutdown → (s.workers i).sleeps = false →
    s.lock = none ∨ (s.workers i).holds = true → (s.workers i).rank = 0) :
    WorkerMoves s i s (s.workers i) where
  workers := (Function.update_eq_self i s.workers).symm
  shutdown := rfl
  destructor := rfl
  lock := .inl rfl
  awake := fun _ hawake => hawake
  nearer := by
    intro hshutdown hawake hlock hpos
    rw [h hshutdown hawake hlock] at hpos
    exact absurd hpos (Nat.lt_irrefl 0)

theorem workerStep_moves (hstep : s.workerStep i = .ok t) : ∃ pc, WorkerMoves s i t pc := by
  -- the pool is shut down: the inner loop is left, and so is the outer one
  have hnotZero : s.shutdown = immediateShutdown → s.shutdown ≠ 0 := by
    intro hshutdown
    rw [hshutdown]
    decide
  have hacquire : (s.workers i).holds = false → (s.workers i).rank = 4 →
      t = (if s.lock = none then { s with lock := some (.worker i) }.setWorker i .testing else s) →
      ∃ pc, WorkerMoves s i t pc := by
    intro hholds hrank heq
    split at heq
    · subst heq
      refine ⟨.testing, rfl, rfl, rfl, .inr (.inl rfl), fun _ _ => rfl, fun _ _ _ _ => ?_⟩
      rw [hrank]
      exact Nat.lt_succ_self 3
    · rename_i htaken
      subst heq
      refine ⟨_, .stays fun _ _ hlock => ?_⟩
      rw [hholds] at hlock
      exact absurd (hlock.resolve_right Bool.false_ne_true) htaken
  unfold ThreadPool.workerStep at hstep
  cases hpc : s.workers i with
  | locking =>
    rw [hpc] at hstep hacquire
    exact hacquire rfl rfl (Except.ok.inj hstep).symm
  | woken =>
    rw [hpc] at hstep hacquire
    exact hacquire rfl rfl (Except.ok.inj hstep).symm
  | asleep =>
    rw [hpc] at hstep
    cases hstep
    refine ⟨_, .stays fun _ hawake => ?_⟩
    rw [hpc] at hawake
    exact nomatch hawake
  | exited =>
    rw [hpc] at hstep
    cases hstep
    refine ⟨_, .stays fun _ _ _ => ?_⟩
    rw [hpc]
    rfl
  | testing =>
    rw [hpc] at hstep
    cases hstep
    refine ⟨_, rfl, rfl, rfl, .inl rfl, fun hshutdown _ => ?_, fun hshutdown _ _ _ => ?_⟩
    · rw [if_neg fun hcond => hnotZero hshutdown hcond.2]
      rfl
    · rw [if_neg fun hcond => hnotZero hshutdown hcond.2, hpc]
      exact Nat.lt_succ_self 2
  | deciding =>
    rw [hpc] at hstep
    cases hstep
    refine ⟨_, rfl, rfl, rfl, .inl rfl, fun hshutdown _ => ?_, fun hshutdown _ _ _ => ?_⟩
    · rw [if_pos (.inl hshutdown)]
      rfl
    · rw [if_pos (.inl hshutdown), hpc]
      exact Nat.lt_succ_self 1
  | toSleep =>
    rw [hpc] at hstep
    cases hstep
    refine ⟨_, rfl, rfl, rfl, .inr (.inr rfl), fun _ hawake => ?_, fun _ hawake => ?_⟩
    · rw [hpc] at hawake
      exact nomatch hawake
    · rw [hpc] at hawake
      exact nomatch hawake
  | breaking =>
    rw [hpc] at hstep
    cases hstep
    refine ⟨_, rfl, rfl, rfl, .inr (.inr rfl), fun _ _ => rfl, fun _ _ _ _ => ?_⟩
    rw [hpc]
    exact Nat.lt_succ_self 0
  | releasing task =>
    rw [hpc] at hstep
    cases hstep
    refine ⟨_, rfl, rfl, rfl, .inr (.inr rfl), fun _ _ => rfl, fun _ _ _ _ => ?_⟩
    rw [hpc]
    exact Nat.lt_succ_self 5
  | working task =>
    rw [hpc] at hstep
    cases hstep
    refine ⟨_, rfl, rfl, rfl, .inl rfl, fun _ _ => rfl, fun _ _ _ _ => ?_⟩
    rw [hpc]
    exact Nat.lt_succ_self 4
  | counting task =>
    rw [hpc] at hstep
    cases hstep
    refine ⟨_, rfl, rfl, rfl, .inl rfl, fun _ _ => rfl, fun _ _ _ _ => ?_⟩
    rw [hpc]
    exact Nat.lt_succ_self 6
  | grabbing =>
    rw [hpc] at hstep
    cases hqueue : s.taskQueue with
    | nil =>
      rw [hqueue] at hstep
      exact nomatch hstep
    | cons task rest =>
      rw [hqueue] at hstep
      cases hstep
      refine ⟨_, rfl, rfl, rfl, .inl rfl, fun _ _ => rfl, fun _ _ _ _ => ?_⟩
      rw [hpc]
      exact Nat.lt_succ_self 7

/-- What a step in `add_task` does to the workers: it wakes some of those asleep at most. -/
structure CallerMoves (s t : ThreadPool τ n) : Prop where
  workers : ∀ i, (s.workers i).isAsleep = false → t.workers i = s.workers i
  sleeps : ∀ i, (t.workers i).sleeps = true → (s.workers i).sleeps = true
  shutdown : t.shutdown = s.shutdown
  destructor : t.destructor = s.destructor

theorem callerMoves_wake (s : ThreadPool τ n) (p : Fin n → Bool) : CallerMoves s (s.wake p) where
  workers := fun i hawake => wake_of_awake hawake p
  sleeps := by
    intro i hsleeps
    change (if p i && (s.workers i).isAsleep then WorkerPc.woken else s.workers i).sleeps = true
      at hsleeps
    split at hsleeps
    · exact nomatch hsleeps
    · exact hsleeps
  shutdown := rfl
  destructor := rfl

theorem callerMoves_of_workers (hworkers : t.workers = s.workers)
    (hshutdown : t.shutdown = s.shutdown) (hdestructor : t.destructor = s.destructor) :
    CallerMoves s t where
  workers := fun i _ => congrFun hworkers i
  sleeps := fun i hsleeps => by rwa [hworkers] at hsleeps
  shutdown := hshutdown
  destructor := hdestructor

theorem callerStep_moves (s : ThreadPool τ n) (k : Nat) (chosen : Option (Fin n)) :
    CallerMoves s (s.callerStep k chosen) := by
  unfold ThreadPool.callerStep
  cases hpc : s.callers k with
  | notifying task waiting =>
    dsimp only
    rcases s.notifyOne_cases k chosen (.unlocking task waiting 0) with heq | ⟨p, heq⟩ | heq
    · rw [heq]
      exact callerMoves_of_workers rfl rfl rfl
    · rw [heq]
      have hwake := callerMoves_wake s p
      exact ⟨hwake.workers, hwake.sleeps, rfl, rfl⟩
    · rw [heq]
      exact callerMoves_of_workers rfl rfl rfl
  | locking task =>
    dsimp only
    split <;> exact callerMoves_of_workers rfl rfl rfl
  | _ => exact callerMoves_of_workers rfl rfl rfl

/-- With the lock, and with no worker to wake, the thread gets nearer to releasing it. -/
theorem callerStep_nearer (hholds : (s.callers k).holds = true)
    (hawake : ∀ i, (s.workers i).isAsleep = false) :
    ((s.callerStep k none).callers k).rank < (s.callers k).rank ∧
      ((s.callerStep k none).lock = s.lock ∨ (s.callerStep k none).lock = none) := by
  unfold ThreadPool.callerStep
  cases hpc : s.callers k with
  | outside =>
    rw [hpc] at hholds
    exact nomatch hholds
  | locking task =>
    rw [hpc] at hholds
    exact nomatch hholds
  | testing task =>
    refine ⟨?_, .inl rfl⟩
    simp only [setCaller, Function.update_self]
    split <;> simp [CallerPc.rank]
  | pushing task waiting => exact ⟨by simp [setCaller, CallerPc.rank], .inl rfl⟩
  | counting task waiting => exact ⟨by simp [setCaller, CallerPc.rank], .inl rfl⟩
  | notifying task waiting =>
    dsimp only [notifyOne]
    rw [if_pos hawake]
    exact ⟨by simp [setCaller, CallerPc.rank], .inl rfl⟩
  | unlocking task waiting result => exact ⟨by simp [setCaller, CallerPc.rank], .inr rfl⟩

/-! ## From `notify_all` to the last join -/

/-- The pool is shut down and no worker sleeps. -/
structure Draining (s : ThreadPool τ n) : Prop where
  ok : PoolOk s
  shutdown : s.shutdown = immediateShutdown
  awake : ∀ i, (s.workers i).sleeps = false

theorem reaches_step {a : ThreadPoolAction τ n} (ha : a.OfThread)
    (hstep : threadPoolStep s a = .ok t) : s.Reaches t := Relation.ReflTransGen.single ⟨a, ha, hstep⟩

theorem Draining.ofWorker (h : Draining s) {pc : WorkerPc τ} (hok : PoolOk t)
    (hmoves : WorkerMoves s i t pc) : Draining t where
  ok := hok
  shutdown := hmoves.shutdown.trans h.shutdown
  awake := by
    intro j
    rw [hmoves.workers]
    by_cases hji : j = i
    · rw [hji, Function.update_self]
      exact hmoves.awake h.shutdown (h.awake i)
    · rw [Function.update_of_ne hji]
      exact h.awake j

theorem Draining.ofCaller (h : Draining s) (k : Nat) (chosen : Option (Fin n)) :
    Draining (s.callerStep k chosen) where
  ok := h.ok.callerStep k chosen
  shutdown := (callerStep_moves s k chosen).shutdown.trans h.shutdown
  awake := by
    intro i
    rw [(callerStep_moves s k chosen).workers i (awake_of_not_sleeps (h.awake i))]
    exact h.awake i

/-- A worker that can have the lock runs to its end, and the lock is free then. -/
theorem Draining.worker_exits (h : Draining s) (i : Fin n)
    (hlock : s.lock = none ∨ s.lock = some (.worker i)) :
    ∃ u, s.Reaches u ∧ Draining u ∧ u.lock = none ∧ u.destructor = s.destructor ∧
      (u.workers i).rank = 0 := by
  induction hrank : (s.workers i).rank using Nat.strong_induction_on generalizing s with
  | h r ih =>
    have howns := h.ok.owns (.worker i)
    rcases Nat.eq_zero_or_pos r with hzero | hpos
    -- at its end a worker has no lock
    · refine ⟨s, .refl, h, hlock.resolve_right fun hheld => ?_, rfl, hrank.trans hzero⟩
      have hinside : (s.workers i).holds = true := howns.mp hheld
      cases hpc : s.workers i with
      | exited =>
        rw [hpc] at hinside
        exact nomatch hinside
      | _ =>
        rw [hpc, hzero] at hrank
        exact nomatch hrank
    · obtain ⟨t, hstep, hok⟩ := h.ok.workerStep i
      obtain ⟨pc, hmoves⟩ := workerStep_moves hstep
      have ht := h.ofWorker hok hmoves
      have hnearer := hmoves.nearer h.shutdown (h.awake i) (hlock.imp_right howns.mp) (hrank ▸ hpos)
      have hlock' : t.lock = none ∨ t.lock = some (.worker i) := by
        rcases hmoves.lock with hsame | hmine | hfree
        · exact hsame ▸ hlock
        · exact .inr hmine
        · exact .inl hfree
      have hpc : t.workers i = pc := by rw [hmoves.workers, Function.update_self]
      obtain ⟨u, hreaches, hu, hfree, hdestructor, hend⟩ :=
        ih pc.rank (hrank ▸ hnearer) ht hlock' (congrArg WorkerPc.rank hpc)
      exact ⟨u, .head ⟨.worker i, trivial, hstep⟩ hreaches, hu, hfree,
        hdestructor.trans hmoves.destructor, hend⟩

/-- A thread in `add_task` that has the lock releases it. -/
theorem Draining.caller_leaves (h : Draining s) (hlock : s.lock = some (.caller k)) :
    ∃ u, s.Reaches u ∧ Draining u ∧ u.lock = none ∧ u.destructor = s.destructor := by
  induction hrank : (s.callers k).rank using Nat.strong_induction_on generalizing s with
  | h r ih =>
    have hholds : (s.callers k).holds = true := (h.ok.owns (.caller k)).mp hlock
    obtain ⟨hnearer, hlock'⟩ := callerStep_nearer hholds fun i => awake_of_not_sleeps (h.awake i)
    have ht := h.ofCaller k none
    have hdestructor := (callerStep_moves s k none).destructor
    have hstep : s.Reaches (s.callerStep k none) :=
      reaches_step (a := .caller k none) trivial rfl
    rcases hlock' with hsame | hfree
    · obtain ⟨u, hreaches, hu, hfree, hdestructor'⟩ :=
        ih _ (hrank ▸ hnearer) ht (hsame.trans hlock) rfl
      exact ⟨u, hstep.trans hreaches, hu, hfree, hdestructor'.trans hdestructor⟩
    · exact ⟨_, hstep, ht, hfree, hdestructor⟩

/-- Whoever has the lock gives it back. -/
theorem Draining.releases (h : Draining s) :
    ∃ u, s.Reaches u ∧ Draining u ∧ u.lock = none ∧ u.destructor = s.destructor := by
  cases hlock : s.lock with
  | none => exact ⟨s, .refl, h, hlock, rfl⟩
  | some x =>
    cases x with
    | worker i =>
      obtain ⟨u, hreaches, hu, hfree, hdestructor, -⟩ := h.worker_exits i (.inr hlock)
      exact ⟨u, hreaches, hu, hfree, hdestructor⟩
    | caller k => exact h.caller_leaves hlock

theorem hasExited_of_rank (h : (s.workers i).rank = 0) : s.hasExited i = true := by
  rw [hasExited, dif_pos i.isLt]
  cases hpc : s.workers i with
  | exited => rfl
  | _ =>
    rw [hpc] at h
    exact nomatch h

/-- With the lock free, the destructor's joins return one after the other. -/
theorem Draining.joins_from (h : Draining s) (hfree : s.lock = none) (m : Nat) {i : Nat}
    (hdestructor : s.destructor = .joining i) (hm : n - i = m) : ∃ u, s.Reaches u ∧ u.Joined := by
  induction m generalizing s i with
  | zero => exact ⟨s, .refl, i, hdestructor, Nat.le_of_sub_eq_zero hm⟩
  | succ m ih =>
    have hi : i < n := Nat.lt_of_sub_eq_succ hm
    obtain ⟨u, hreaches, hu, hfree', hsame, hend⟩ := h.worker_exits ⟨i, hi⟩ (.inl hfree)
    have hjoining : u.destructor = .joining i := hsame.trans hdestructor
    have hexited : u.hasExited i = true := hasExited_of_rank (i := ⟨i, hi⟩) hend
    have hstep : u.destructorStep = { u with destructor := .joining (i + 1) } := by
      simp only [destructorStep, hjoining, hexited, if_true]
    have ht : Draining u.destructorStep := by
      rw [hstep]
      exact ⟨hstep ▸ hu.ok.destructorStep, hu.shutdown, hu.awake⟩
    obtain ⟨v, hreaches', hv⟩ := ih ht (by rw [hstep]; exact hfree') (by rw [hstep]) (by omega)
    have hjoin : u.Reaches u.destructorStep := reaches_step (a := .destructor) trivial rfl
    exact ⟨v, (hreaches.trans hjoin).trans hreaches', hv⟩

theorem Draining.stops (h : Draining s) (hnotified : s.Notified) : Stops s where
  awake := h.awake
  joins := by
    obtain ⟨i, hdestructor⟩ := hnotified
    obtain ⟨u, hreaches, hu, hfree, hsame⟩ := h.releases
    obtain ⟨v, hreaches', hv⟩ := hu.joins_from hfree _ (hsame.trans hdestructor) rfl
    exact ⟨v, hreaches.trans hreaches', hv⟩

/-! ## Every run -/

/-- What a run keeps as long as it overtakes no worker. -/
structure Stopping (s : ThreadPool τ n) : Prop where
  ok : PoolOk s
  shutdown : s.destructor ≠ .alive → s.shutdown = immediateShutdown
  awake : s.Notified → ∀ i, (s.workers i).sleeps = false

theorem stopping_init (queueSize : Int) : Stopping (init queueSize : ThreadPool τ n) where
  ok := poolOk_init queueSize
  shutdown := fun hne => absurd rfl hne
  awake := fun ⟨_, hjoining⟩ => nomatch hjoining

theorem Stopping.isShutdown (h : Stopping s) (hnotified : s.Notified) :
    s.shutdown = immediateShutdown := by
  obtain ⟨i, hjoining⟩ := hnotified
  refine h.shutdown ?_
  rw [hjoining]
  exact fun heq => nomatch heq

theorem Stopping.stops (h : Stopping s) (hnotified : s.Notified) : Stops s :=
  Draining.stops ⟨h.ok, h.isShutdown hnotified, h.awake hnotified⟩ hnotified

/-- A step by which no worker begins to sleep once the pool is shut down. -/
theorem Stopping.quiet (h : Stopping s) (hok : PoolOk t) (hshutdown : t.shutdown = s.shutdown)
    (hdestructor : t.destructor = s.destructor)
    (hsleeps : s.shutdown = immediateShutdown →
      ∀ i, (s.workers i).sleeps = false → (t.workers i).sleeps = false) : Stopping t where
  ok := hok
  shutdown := by
    rw [hdestructor, hshutdown]
    exact h.shutdown
  awake := by
    intro hnotified i
    have hbefore : s.Notified := by
      obtain ⟨j, hjoining⟩ := hnotified
      exact ⟨j, hdestructor.symm.trans hjoining⟩
    exact hsleeps (h.isShutdown hbefore) i (h.awake hbefore i)

/-- **Destructor step**. -/
theorem Stopping.destructorStep (h : Stopping s) (hP : ¬ s.Overtakes .destructor) :
    Stopping s.destructorStep := by
  have hok := h.ok.destructorStep
  unfold ThreadPool.destructorStep at hok ⊢
  cases hpc : s.destructor with
  | alive =>
    rw [hpc] at hok
    exact ⟨hok, fun _ => rfl, fun ⟨_, hjoining⟩ => nomatch hjoining⟩
  | notifying =>
    rw [hpc] at hok
    refine ⟨hok, fun _ => h.shutdown (by rw [hpc]; exact fun heq => nomatch heq), fun _ i => ?_⟩
    -- a worker that was asleep is woken, and no other one sleeps
    have hmoves := callerMoves_wake s fun _ => true
    rw [← Bool.not_eq_true]
    intro hsleeps
    cases hasleep : (s.workers i).isAsleep with
    | true =>
      change (if true && (s.workers i).isAsleep then WorkerPc.woken else s.workers i).sleeps = true
        at hsleeps
      rw [hasleep] at hsleeps
      exact nomatch hsleeps
    | false => exact hP ⟨rfl, hpc, i, hmoves.sleeps i hsleeps, hasleep⟩
  | joining i =>
    rw [hpc] at hok
    have hnotified : s.Notified := ⟨i, hpc⟩
    dsimp only at hok ⊢
    split
    · rename_i hexited
      rw [if_pos hexited] at hok
      exact ⟨hok, fun _ => h.isShutdown hnotified, fun _ => h.awake hnotified⟩
    · exact h

/-- **Step**. -/
theorem Stopping.step (h : Stopping s) {a : ThreadPoolAction τ n} (hP : ¬ s.Overtakes a)
    (hstep : threadPoolStep s a = .ok t) : Stopping t := by
  obtain ⟨t', hok', hok⟩ := h.ok.step a
  cases hok'.symm.trans hstep
  cases a with
  | addTask k task =>
    simp only [threadPoolStep] at hstep
    split at hstep <;> cases hstep
    · exact h.quiet hok rfl rfl fun _ _ hawake => hawake
    · exact h
  | caller k chosen =>
    cases hstep
    have hmoves := callerStep_moves s k chosen
    refine h.quiet hok hmoves.shutdown hmoves.destructor fun _ i hawake => ?_
    rw [hmoves.workers i (awake_of_not_sleeps hawake)]
    exact hawake
  | worker i =>
    obtain ⟨pc, hmoves⟩ := workerStep_moves hstep
    refine h.quiet hok hmoves.shutdown hmoves.destructor fun hshutdown j hawake => ?_
    rw [hmoves.workers]
    by_cases hji : j = i
    · subst hji
      rw [Function.update_self]
      exact hmoves.awake hshutdown hawake
    · rwa [Function.update_of_ne hji]
  | spurious i =>
    cases hstep
    refine h.quiet hok rfl rfl fun _ j hawake => ?_
    rw [wake_of_awake (awake_of_not_sleeps hawake)]
    exact hawake
  | destructor =>
    cases hstep
    exact h.destructorStep hP

/-- A worker that is overtaken sleeps behind `notify_all`. -/
theorem Overtakes.sleeps {a : ThreadPoolAction τ n} (hP : s.Overtakes a)
    (hstep : threadPoolStep s a = .ok t) : t.Notified ∧ ∃ i, (t.workers i).sleeps = true := by
  obtain ⟨rfl, hpc, i, hsleeps, hasleep⟩ := hP
  cases hstep
  have heq : s.destructorStep = { s.wake fun _ => true with destructor := .joining 0 } := by
    simp only [ThreadPool.destructorStep, hpc]
  rw [heq]
  refine ⟨⟨0, rfl⟩, i, ?_⟩
  change ((s.wake fun _ => true).workers i).sleeps = true
  rwa [wake_of_awake hasleep]

/-- **No wakeup is lost, unless it comes too early**: with any number of workers, in every run, every
state after `notify_all` has all the workers awake and all the joins can return, exactly when the
destructor does not execute `notify_all` between the test and the sleep of a worker. -/
theorem shutdown_wakes_iff (τ : Type*) (n : Nat) (queueSize : Int)
    (as : List (ThreadPoolAction τ n)) :
    ∃ t, run threadPoolStep (init queueSize : ThreadPool τ n) as = .ok t ∧
      (Along threadPoolStep (fun s _ => s.Notified → Stops s) (init queueSize : ThreadPool τ n) as ∧
          (t.Notified → Stops t) ↔
        Along threadPoolStep (fun s a => ¬ s.Overtakes a) (init queueSize : ThreadPool τ n) as) := by
  have hall : Along threadPoolStep (fun _ _ => True) (init queueSize : ThreadPool τ n) as :=
    along_of_forall (p := fun _ => True) fun _ _ => trivial
  obtain ⟨t, hrun, -⟩ := run_ok (I := PoolOk) (fun s a hs _ => hs.step a) (poolOk_init queueSize) hall
  refine ⟨t, hrun, ?_⟩
  refine always_iff_along (I := Stopping) (Q := fun _ _ => True) (fun s hs => hs.stops) ?_
    (stopping_init queueSize) hall hrun
  intro s a u hs _ hstep
  refine ⟨fun hP => hs.step hP hstep, fun hgood hP => ?_⟩
  obtain ⟨hnotified, i, hsleeps⟩ := hP.sleeps hstep
  rw [(hgood hnotified).awake i] at hsleeps
  exact Bool.false_ne_true hsleeps

/-- A worker tests `shutdown`, the destructor stores to it and executes `notify_all`, and the worker
goes to sleep: the destructor waits for a worker that nobody wakes. -/
theorem lost_wakeup :
    ¬ ∀ (as : List (ThreadPoolAction Unit 1)) (t : ThreadPool Unit 1),
      run threadPoolStep (init 4 : ThreadPool Unit 1) as = .ok t → t.Notified → Stops t := by
  intro h
  have hstops := h [.worker 0, .worker 0, .destructor, .destructor, .worker 0] _ rfl ⟨0, rfl⟩
  exact nomatch hstops.awake 0

end ThreadPool

end Sails.Base
