import Sails.Base.ThreadQueue

/-!
# The counter of `base::ThreadQueue`

All the mutators of `ThreadQueue`, over its members as they are declared: the deque, the
counter `_size` and the capacity, with nothing said about how the first two agree.

- `QueueMembers`: the members, and one function per locked section
- `QueueAction`, `queueStep`: any number of threads, each of which may have passed the
  unlocked test of `push_back`
- `thread_queue_counter`: the counter is exact, as long as `swap` exchanges equal lengths
-/

namespace Sails.Base

open TransitionRun

/-- The members of a `ThreadQueue` that its mutators change. -/
structure QueueMembers (α : Type*) where
  queue : List α
  size : Nat
  maxSize : Nat

namespace QueueMembers

variable {α : Type*}

/-- The constructor. -/
def init : QueueMembers α := ⟨[], 0, ThreadQueue.defaultMaxSize⟩

/-- The counter is the length. -/
def Exact (m : QueueMembers α) : Prop := m.size = m.queue.length

/-- The test `push_back(t)` makes before it locks: `_size >= _maxSize`. -/
def isFull (m : QueueMembers α) : Bool := decide (m.maxSize ≤ m.size)

/-- The locked section of `push_back(t)`. -/
def pushBack (m : QueueMembers α) (t : α) : QueueMembers α :=
  { m with queue := m.queue ++ [t], size := m.size + 1 }

/-- The loop of `push_back(qt)`: the members and the number of elements put in. -/
def pushBackAll (m : QueueMembers α) (pushNum : Nat) : List α → QueueMembers α × Nat
  | [] => (m, pushNum)
  | t :: ts => if m.maxSize ≤ m.size then (m, pushNum) else (m.pushBack t).pushBackAll (pushNum + 1) ts

/-- The locked section of `push_front(t)`. -/
def pushFront (m : QueueMembers α) (t : α) : QueueMembers α :=
  { m with queue := t :: m.queue, size := m.size + 1 }

/-- The loop of `push_front(qt)`. -/
def pushFrontAll (m : QueueMembers α) : List α → QueueMembers α
  | [] => m
  | t :: ts => (m.pushFront t).pushFrontAll ts

/-- The last locked section of `pop_front`: the element taken, if there is one. -/
def popFront (m : QueueMembers α) : Except Fault (QueueMembers α × Option α) :=
  match m.queue with
  | [] => .ok (m, none)
  | t :: rest =>
    if 0 < m.size then .ok ({ m with queue := rest, size := m.size - 1 }, some t)
    else .error .assertion

/-- The last locked section of `swap(q)`: the members and what the caller's queue holds then.
The counter is set from the caller's queue. -/
def swap (m : QueueMembers α) (q : List α) : QueueMembers α × List α :=
  match m.queue with
  | [] => (m, q)
  | _ :: _ => ({ m with queue := q, size := m.queue.length }, m.queue)

/-- `clear`. -/
def clear (m : QueueMembers α) : QueueMembers α := { m with queue := [], size := 0 }

/-- `setMaxSize`. -/
def setMaxSize (m : QueueMembers α) (maxSize : Nat) : QueueMembers α := { m with maxSize := maxSize }

/-! ## One mutator at a time -/

variable {m : QueueMembers α}

theorem exact_init : (init : QueueMembers α).Exact := rfl

theorem Exact.pushBack (h : m.Exact) (t : α) : (m.pushBack t).Exact := by
  change m.size + 1 = (m.queue ++ [t]).length
  rw [h, List.length_append, List.length_singleton]

theorem Exact.pushBackAll (h : m.Exact) (n : Nat) (ts : List α) : (m.pushBackAll n ts).1.Exact := by
  induction ts generalizing m n with
  | nil => exact h
  | cons t ts ih =>
    unfold QueueMembers.pushBackAll
    split
    · exact h
    · exact ih (h.pushBack t) (n + 1)

theorem Exact.pushFront (h : m.Exact) (t : α) : (m.pushFront t).Exact := by
  change m.size + 1 = (t :: m.queue).length
  rw [h, List.length_cons]

theorem Exact.pushFrontAll (h : m.Exact) (ts : List α) : (m.pushFrontAll ts).Exact := by
  induction ts generalizing m with
  | nil => exact h
  | cons t ts ih => exact ih (h.pushFront t)

/-- With an exact counter the assertion of `pop_front` holds. -/
theorem Exact.popFront (h : m.Exact) : ∃ m' t, m.popFront = .ok (m', t) ∧ m'.Exact := by
  unfold QueueMembers.popFront
  split
  · exact ⟨m, none, rfl, h⟩
  · rename_i t rest hcons
    have hsize : m.size = rest.length + 1 := by rw [h, hcons, List.length_cons]
    have hpos : 0 < m.size := hsize ▸ Nat.succ_pos _
    rw [if_pos hpos]
    refine ⟨_, some t, rfl, ?_⟩
    change m.size - 1 = rest.length
    rw [hsize, Nat.add_sub_cancel]

/-- A `swap` that goes through leaves the counter exact only between queues of one length. -/
theorem exact_swap_iff {q : List α} (hne : m.queue ≠ []) :
    (m.swap q).1.Exact ↔ q.length = m.queue.length := by
  cases hcons : m.queue with
  | nil => exact absurd hcons hne
  | cons t rest =>
    simp only [swap, hcons, Exact]
    exact eq_comm

theorem Exact.swap (h : m.Exact) {q : List α} (hq : m.queue ≠ [] → q.length = m.queue.length) :
    (m.swap q).1.Exact := by
  by_cases hempty : m.queue = []
  · simp only [QueueMembers.swap, hempty]
    exact h
  · exact (exact_swap_iff hempty).mpr (hq hempty)

/-- With an exact counter the test of `push_back` fails only on a full queue. -/
theorem Exact.length_of_isFull (h : m.Exact) (hfull : m.isFull = true) :
    m.maxSize ≤ m.queue.length := by
  rw [← h]
  exact of_decide_eq_true hfull

end QueueMembers

/-! ## The queue with an exact counter -/

namespace ThreadQueue

variable {α : Type*}

/-- The members of a queue whose counter is exact. -/
def members (q : ThreadQueue α) : QueueMembers α := ⟨q.queue, q.size, q.maxSize⟩

theorem members_exact (q : ThreadQueue α) : q.members.Exact := q.size_eq

theorem members_pushLocked (q : ThreadQueue α) (t : α) :
    (q.pushLocked t).members = q.members.pushBack t := rfl

theorem isFull_members (q : ThreadQueue α) : q.members.isFull = q.isFull := rfl

end ThreadQueue

/-! ## Threads -/

/-- A queue and the threads that call `push_back(t)`. -/
structure QueueThreads (α : Type*) where
  members : QueueMembers α
  /-- what a thread that has passed the test is about to insert -/
  passed : Nat → Option α

/-- A locked section, or the unlocked test of `push_back(t)` by thread `k`. -/
inductive QueueAction (α : Type*) where
  | test (k : Nat) (t : α)
  | insert (k : Nat)
  | pushBackAll (qt : List α)
  | pushFront (t : α)
  | pushFrontAll (qt : List α)
  | popFront
  | swap (q : List α)
  | clear
  | setMaxSize (maxSize : Nat)

variable {α : Type*}

/-- Where thread `k` stands. -/
def QueueThreads.setPassed (s : QueueThreads α) (k : Nat) (t : Option α) : QueueThreads α :=
  { s with passed := fun j => if j = k then t else s.passed j }

/-- One action. -/
def queueStep (s : QueueThreads α) : QueueAction α → Except Fault (QueueThreads α)
  | .test k t => .ok (if s.members.isFull then s else s.setPassed k (some t))
  | .insert k =>
    match s.passed k with
    | none => .ok s
    | some t => .ok ({ s with members := s.members.pushBack t }.setPassed k none)
  | .pushBackAll qt => .ok { s with members := (s.members.pushBackAll 0 qt).1 }
  | .pushFront t => .ok { s with members := s.members.pushFront t }
  | .pushFrontAll qt => .ok { s with members := s.members.pushFrontAll qt }
  | .popFront =>
    match s.members.popFront with
    | .error e => .error e
    | .ok (m, _) => .ok { s with members := m }
  | .swap q => .ok { s with members := (s.members.swap q).1 }
  | .clear => .ok { s with members := s.members.clear }
  | .setMaxSize maxSize => .ok { s with members := s.members.setMaxSize maxSize }

def QueueThreads.init : QueueThreads α := ⟨.init, fun _ => none⟩

/-- A `swap` that goes through exchanges queues of the same length. -/
def SwapsEqual (s : QueueThreads α) : QueueAction α → Prop
  | .swap q => s.members.queue ≠ [] → q.length = s.members.queue.length
  | _ => True

/-- **Step**: the assertion holds and the counter stays exact. -/
theorem queueStep_exact (s : QueueThreads α) (a : QueueAction α) (h : s.members.Exact)
    (hswap : SwapsEqual s a) : ∃ t, queueStep s a = .ok t ∧ t.members.Exact := by
  cases a with
  | test k t =>
    refine ⟨_, rfl, ?_⟩
    split
    · exact h
    · exact h
  | insert k =>
    unfold queueStep
    dsimp only
    split
    · exact ⟨s, rfl, h⟩
    · exact ⟨_, rfl, h.pushBack _⟩
  | pushBackAll qt => exact ⟨_, rfl, h.pushBackAll 0 qt⟩
  | pushFront t => exact ⟨_, rfl, h.pushFront t⟩
  | pushFrontAll qt => exact ⟨_, rfl, h.pushFrontAll qt⟩
  | popFront =>
    obtain ⟨m, t, hpop, hm⟩ := h.popFront
    simp only [queueStep, hpop]
    exact ⟨_, rfl, hm⟩
  | swap q => exact ⟨_, rfl, h.swap hswap⟩
  | clear => exact ⟨_, rfl, rfl⟩
  | setMaxSize maxSize => exact ⟨_, rfl, h⟩

/-- What the counter of a queue is good for. -/
structure CounterGood (m : QueueMembers α) : Prop where
  /-- `size()` is exact -/
  exact_size : m.size = m.queue.length
  /-- the assertion in `pop_front` holds -/
  pops : ∃ r, m.popFront = .ok r
  /-- `push_back` refuses an element only when the queue is full -/
  refuses : m.isFull = true → m.maxSize ≤ m.queue.length

/-- **The counter is the length**: in every run of the locked sections and the unlocked tests in
which each `swap` that goes through exchanges queues of the same length, no assertion fails and
the counter of the state reached is exact. -/
theorem thread_queue_counter (as : List (QueueAction α))
    (hswap : Along queueStep SwapsEqual QueueThreads.init as) :
    ∃ t, run queueStep QueueThreads.init as = .ok t ∧ CounterGood t.members := by
  obtain ⟨t, hrun, hexact⟩ := run_ok queueStep_exact QueueMembers.exact_init hswap
  obtain ⟨m, x, hpop, -⟩ := hexact.popFront
  exact ⟨t, hrun, hexact, ⟨_, hpop⟩, hexact.length_of_isFull⟩

/-- A queue of one element is exchanged for another. -/
theorem thread_queue_counter_swap :
    ∃ t, run queueStep QueueThreads.init
      [.test 0 'a', .insert 0, .swap ['b'], .popFront] = .ok t ∧ CounterGood t.members := by
  refine thread_queue_counter _ ?_
  refine .cons_ok trivial rfl (.cons_ok trivial rfl (.cons_ok (fun _ => rfl) rfl ?_))
  exact .cons_ok trivial rfl trivial

/-- One element is exchanged for none: the counter stays at 1. -/
theorem swap_miscounts :
    ¬ ∀ (as : List (QueueAction Char)) (t : QueueThreads Char),
      run queueStep QueueThreads.init as = .ok t → CounterGood t.members := by
  intro hclaim
  have hgood := hclaim [.test 0 'a', .insert 0, .swap []] _ rfl
  exact absurd hgood.exact_size (by decide)

end Sails.Base
