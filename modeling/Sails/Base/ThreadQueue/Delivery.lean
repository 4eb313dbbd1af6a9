import Sails.Base.ThreadQueue.Counter
import Sails.Library.FifoHistory

/-!
# What goes in and what comes out of `base::ThreadQueue`

Threads use `push_back`, `pop_front` and `clear`, and neither `push_front` nor `swap`.

- `bound_iff_room`: the queue stays within its capacity as long as `push_back(t)` still finds room
  when it has the mutex
- `LoggedQueue`: the calls, in the order of their locked sections, with what they return
- `delivery`: what comes out, and what is there, is what went in, in order, less what `clear` has
  discarded; `push_back(qt)` returns the number of elements that went in as long as an `int` holds it
-/

namespace Sails.Base

open TransitionRun

variable {α : Type*}

/-! ## The loop of `push_back(qt)` -/

/-- How many elements go in: as many as there is room for. -/
def QueueMembers.fits (m : QueueMembers α) (qt : List α) : Nat := min qt.length (m.maxSize - m.size)

theorem QueueMembers.pushBackAll_eq (m : QueueMembers α) (n : Nat) (qt : List α) :
    m.pushBackAll n qt =
      ({ m with queue := m.queue ++ qt.take (m.fits qt), size := m.size + m.fits qt },
        n + m.fits qt) := by
  -- on the elements still to go in; the queue and the count change from round to round
  induction qt generalizing m n with
  | nil => simp [pushBackAll, fits]
  | cons t ts ih =>
    unfold pushBackAll
    split
    · rename_i hfull
      have hfits : m.fits (t :: ts) = 0 := by
        unfold fits
        omega
      simp [hfits]
    · rename_i hroom
      have hfits : m.fits (t :: ts) = (m.pushBack t).fits ts + 1 := by
        simp only [fits, pushBack, List.length_cons]
        omega
      rw [ih, hfits, List.take_succ_cons]
      simp only [pushBack, List.append_assoc, List.singleton_append, Prod.mk.injEq,
        QueueMembers.mk.injEq, true_and, and_true]
      omega

/-! ## The bound -/

/-- A new queue of some capacity, and nobody at it. -/
def QueueThreads.empty (maxSize : Nat) : QueueThreads α := ⟨⟨[], 0, maxSize⟩, fun _ => none⟩

/-- Elements go in at the back and come out at the front. -/
def BackOnly : QueueAction α → Prop
  | .pushFront _ | .pushFrontAll _ | .swap _ => False
  | _ => True

/-- The capacity stays. -/
def KeepsMaxSize : QueueAction α → Prop
  | .setMaxSize _ => False
  | _ => True

/-- When `push_back(t)` has the mutex, the test would be passed again. -/
def FindsRoom (s : QueueThreads α) : QueueAction α → Prop
  | .insert k => s.passed k ≠ none → s.members.isFull = false
  | _ => True

def QueueThreads.Bounded (maxSize : Nat) (s : QueueThreads α) : Prop :=
  s.members.queue.length ≤ maxSize

/-- What a run keeps as long as it is within the bound. -/
def Within (maxSize : Nat) (s : QueueThreads α) : Prop :=
  (s.members.Exact ∧ s.members.maxSize = maxSize) ∧ s.Bounded maxSize

/-- **Step**: only an insertion of `push_back(t)` can go over the bound. -/
theorem queueStep_bounded {maxSize : Nat} {s s' : QueueThreads α} {a : QueueAction α}
    (h : Within maxSize s) (ha : BackOnly a ∧ KeepsMaxSize a) (hstep : queueStep s a = .ok s') :
    (FindsRoom s a → Within maxSize s') ∧ (s'.Bounded maxSize → FindsRoom s a) := by
  obtain ⟨⟨hexact, hmax⟩, hbound⟩ := h
  have hsize : s.members.size = s.members.queue.length := hexact
  cases a with
  | test k t =>
    cases hstep
    split
    · exact ⟨fun _ => ⟨⟨hexact, hmax⟩, hbound⟩, fun _ => trivial⟩
    · exact ⟨fun _ => ⟨⟨hexact, hmax⟩, hbound⟩, fun _ => trivial⟩
  | insert k =>
    unfold queueStep at hstep
    dsimp only at hstep
    split at hstep
    · rename_i hnone
      cases hstep
      exact ⟨fun _ => ⟨⟨hexact, hmax⟩, hbound⟩, fun _ hsome => absurd hnone hsome⟩
    · rename_i t hsome
      cases hstep
      -- the element goes in whatever the size is now
      have hlength : (s.members.queue ++ [t]).length = s.members.size + 1 := by
        rw [List.length_append, List.length_singleton, hsize]
      have hroom : s.members.isFull = false ↔ s.members.size + 1 ≤ maxSize := by
        unfold QueueMembers.isFull
        rw [decide_eq_false_iff_not, Nat.not_le, hmax]
        exact Nat.lt_iff_add_one_le
      constructor
      · intro hfinds
        have hfree := hfinds (hsome ▸ Option.some_ne_none t)
        exact ⟨⟨hexact.pushBack t, hmax⟩, Nat.le_trans (Nat.le_of_eq hlength) (hroom.mp hfree)⟩
      · exact fun hwithin _ => hroom.mpr (hlength ▸ hwithin)
  | pushBackAll qt =>
    cases hstep
    refine ⟨fun _ => ⟨⟨hexact.pushBackAll 0 qt, ?_⟩, ?_⟩, fun _ => trivial⟩
    -- this overload tests inside the lock, before each element
    · rw [QueueMembers.pushBackAll_eq]
      exact hmax
    · change (s.members.pushBackAll 0 qt).1.queue.length ≤ maxSize
      unfold QueueThreads.Bounded at hbound
      rw [QueueMembers.pushBackAll_eq, List.length_append, List.length_take]
      unfold QueueMembers.fits
      omega
  | popFront =>
    obtain ⟨m, t, hpop, hm⟩ := hexact.popFront
    simp only [queueStep, hpop] at hstep
    cases hstep
    unfold QueueMembers.popFront at hpop
    split at hpop
    · cases hpop
      exact ⟨fun _ => ⟨⟨hm, hmax⟩, hbound⟩, fun _ => trivial⟩
    · rename_i x rest hcons
      split at hpop
      · cases hpop
        refine ⟨fun _ => ⟨⟨hm, hmax⟩, ?_⟩, fun _ => trivial⟩
        unfold QueueThreads.Bounded at hbound
        rw [hcons, List.length_cons] at hbound
        exact Nat.le_of_succ_le hbound
      · cases hpop
  | clear =>
    cases hstep
    exact ⟨fun _ => ⟨⟨rfl, hmax⟩, Nat.zero_le _⟩, fun _ => trivial⟩
  | pushFront | pushFrontAll | swap => exact ha.1.elim
  | setMaxSize => exact ha.2.elim

/-- An operation at the back or at the front keeps the counter, and no assertion fails. -/
theorem backOnly_swapsEqual {s : QueueThreads α} {a : QueueAction α} (h : BackOnly a) :
    SwapsEqual s a := by
  cases a with
  | swap => exact h.elim
  | _ => trivial

theorem run_backOnly {s : QueueThreads α} {as : List (QueueAction α)} (hs : s.members.Exact)
    (has : ∀ a ∈ as, BackOnly a) : ∃ t, run queueStep s as = .ok t ∧ t.members.Exact :=
  run_ok queueStep_exact hs
    ((along_of_forall has).mono fun _ _ ha => backOnly_swapsEqual ha)

/-- **The bound**: however the calls of any number of threads interleave, the queue never holds more
than `_maxSize` elements exactly when each insertion of `push_back(t)` finds room. -/
theorem bound_iff_room (maxSize : Nat) (as : List (QueueAction α))
    (has : ∀ a ∈ as, BackOnly a ∧ KeepsMaxSize a) :
    ∃ t, run queueStep (.empty maxSize) as = .ok t ∧
      (Along queueStep (fun s _ => s.Bounded maxSize) (.empty maxSize) as ∧ t.Bounded maxSize ↔
        Along queueStep FindsRoom (.empty maxSize) as) := by
  obtain ⟨t, hrun, -⟩ := run_backOnly (s := .empty maxSize) rfl fun a ha => (has a ha).1
  exact ⟨t, hrun, always_iff_along (fun _ h => h.2) (fun _ _ _ => queueStep_bounded)
    ⟨⟨rfl, rfl⟩, Nat.zero_le maxSize⟩
    (along_of_forall (p := fun a => BackOnly a ∧ KeepsMaxSize a) has) hrun⟩

/-- Two threads put elements into a queue with room for both. -/
theorem bound_iff_room_two : ∃ t, run queueStep (.empty 2)
    [.test 0 'a', .test 1 'b', .insert 1, .insert 0] = .ok t ∧ t.Bounded 2 := by
  obtain ⟨t, hrun, hiff⟩ := bound_iff_room 2
    [.test 0 'a', .test 1 'b', .insert 1, .insert 0] (by simp [BackOnly, KeepsMaxSize])
  refine ⟨t, hrun, (hiff.mpr ?_).2⟩
  exact .cons_ok trivial rfl (.cons_ok trivial rfl
    (.cons_ok (fun _ => rfl) rfl (.cons_ok (fun _ => rfl) rfl trivial)))

/-- Two threads pass the test of a queue with room for one element. -/
theorem bound_exceeded :
    ¬ ∀ (as : List (QueueAction Char)) (t : QueueThreads Char),
      (∀ a ∈ as, BackOnly a ∧ KeepsMaxSize a) → run queueStep (.empty 1) as = .ok t →
        t.Bounded 1 := by
  intro hclaim
  have hbound := hclaim [.test 0 'a', .test 1 'b', .insert 1, .insert 0] _
    (by simp [BackOnly, KeepsMaxSize]) rfl
  exact absurd hbound (by unfold QueueThreads.Bounded; decide)

/-! ## Calls and what they return -/

/-- The value of an `int` that has counted to `n`. -/
def pushNum (n : Nat) : Int := (n : Int).bmod (2 ^ 32)

/-- An `int` counts right below `2 ^ 31`. -/
theorem pushNum_eq_iff (n : Nat) : pushNum n = n ↔ n < 2 ^ 31 := by
  unfold pushNum
  -- the values of an `int` are those from -2 ^ 31 to 2 ^ 31 - 1
  rw [Int.bmod_eq_iff (by omega)]
  omega

/-- A call that has had its locked section, or has returned without one. -/
inductive QueueCall (α : Type*) where
  | pushBack (t : α) (returned : Bool)
  /-- the capacity at the time, the number of elements that went in, and what was returned -/
  | pushBackAll (qt : List α) (maxSize accepted : Nat) (returned : Int)
  | popFront (returned : Option α)
  | clear

/-- The queue with the calls so far. -/
structure LoggedQueue (α : Type*) where
  threads : QueueThreads α
  log : List (QueueCall α)

/-- The call that an action completes, if it does. -/
def callOf (s : QueueThreads α) : QueueAction α → Option (QueueCall α)
  | .test _ t => if s.members.isFull then some (.pushBack t false) else none
  | .insert k => (s.passed k).map fun t => .pushBack t true
  | .pushBackAll qt =>
    let n := (s.members.pushBackAll 0 qt).2
    some (.pushBackAll qt s.members.maxSize n (pushNum n))
  | .popFront =>
    match s.members.popFront with
    | .error _ => none
    | .ok (_, t) => some (.popFront t)
  | .clear => some .clear
  | _ => none

/-- One action, with its call recorded. -/
def loggedStep (s : LoggedQueue α) (a : QueueAction α) : Except Fault (LoggedQueue α) :=
  match queueStep s.threads a with
  | .error e => .error e
  | .ok t => .ok ⟨t, s.log ++ (callOf s.threads a).toList⟩

def LoggedQueue.init (maxSize : Nat) : LoggedQueue α := ⟨.empty maxSize, []⟩

/-! ## The calls as operations of a queue with a past -/

/-- What a call puts in. -/
def QueueCall.accepts : QueueCall α → List α
  | .pushBack t true => [t]
  | .pushBackAll qt _ n _ => qt.take n
  | _ => []

/-- What a call takes out. -/
def QueueCall.pops : QueueCall α → Option α
  | .popFront t => t
  | _ => none

/-- What a call does to the queue. -/
def QueueCall.perform (h : FifoHistory α) : QueueCall α → FifoHistory α
  | .pushBack t true => h.accept [t]
  | .pushBack _ false => h
  | .pushBackAll qt _ n _ => h.accept (qt.take n)
  | .popFront (some _) => h.pop
  | .popFront none => h
  | .clear => h.clear

/-- The queue with its past, according to the calls alone. -/
def historyOf (log : List (QueueCall α)) : FifoHistory α := log.foldl QueueCall.perform .empty

def acceptedOf (log : List (QueueCall α)) : List α := log.flatMap QueueCall.accepts

def poppedOf (log : List (QueueCall α)) : List α := log.filterMap QueueCall.pops

/-- What comes out, and what is there, is what went in. -/
structure Delivers (s : LoggedQueue α) : Prop where
  /-- what was popped, followed by the content, is what was accepted less what was discarded, -/
  order : poppedOf s.log ++ s.threads.members.queue =
    (historyOf s.log).survivors.map Prod.fst
  accepted : (historyOf s.log).accepted = acceptedOf s.log
  /-- and what a `clear` discards is what is in the queue then. -/
  content : (historyOf s.log).content.map Prod.fst = s.threads.members.queue
  /-- `push_back(qt)` takes the longest prefix that fits. -/
  prefixes : ∀ before qt maxSize n r after,
    s.log = before ++ .pushBackAll qt maxSize n r :: after →
      n = min qt.length (maxSize - (historyOf before).content.length)

/-- `push_back(qt)` returns the number of elements that went in. -/
def ReturnsLength (s : LoggedQueue α) : Prop :=
  ∀ qt maxSize (n : Nat) (r : Int), .pushBackAll qt maxSize n r ∈ s.log → r = n

/-- The number of elements that `push_back(qt)` has room for fits an `int`. -/
def FitsInt (s : LoggedQueue α) : QueueAction α → Prop
  | .pushBackAll qt => s.threads.members.fits qt < 2 ^ 31
  | _ => True

/-! ## Each call is an operation of the queue with its past -/

/-- What every run keeps. -/
structure Logged (s : LoggedQueue α) : Prop extends Delivers s where
  exact : s.threads.members.Exact
  conserves : (historyOf s.log).Conserves
  popped : (historyOf s.log).popped.map Prod.fst = poppedOf s.log

variable {s : LoggedQueue α} {t : QueueThreads α} {c : QueueCall α}

theorem historyOf_call (log : List (QueueCall α)) (c : QueueCall α) :
    historyOf (log ++ [c]) = c.perform (historyOf log) := by
  rw [historyOf, List.foldl_append]
  rfl

theorem acceptedOf_call (log : List (QueueCall α)) (c : QueueCall α) :
    acceptedOf (log ++ [c]) = acceptedOf log ++ c.accepts := by
  rw [acceptedOf, List.flatMap_append, List.flatMap_singleton]
  rfl

theorem poppedOf_call (log : List (QueueCall α)) (c : QueueCall α) :
    poppedOf (log ++ [c]) = poppedOf log ++ c.pops.toList := by
  rw [poppedOf, List.filterMap_append]
  cases hc : c.pops <;> simp [hc, poppedOf]

theorem QueueCall.perform_accepted (h : FifoHistory α) (c : QueueCall α) :
    (c.perform h).accepted = h.accepted ++ c.accepts := by
  cases c with
  | pushBack t returned =>
    cases returned with
    | true => rfl
    | false => exact (List.append_nil _).symm
  | pushBackAll => rfl
  | popFront t =>
    cases t with
    | some => exact (List.append_nil _).symm
    | none => exact (List.append_nil _).symm
  | clear => exact (List.append_nil _).symm

theorem QueueCall.perform_conserves {h : FifoHistory α} (hc : h.Conserves) (c : QueueCall α) :
    (c.perform h).Conserves := by
  cases c with
  | pushBack t returned =>
    cases returned with
    | true => exact hc.accept [t]
    | false => exact hc
  | pushBackAll qt _ n _ => exact hc.accept (qt.take n)
  | popFront t =>
    cases t with
    | some => exact hc.pop
    | none => exact hc
  | clear => exact hc.clear

/-- The locked section of a call, which does to the queue what the call does to its past. -/
theorem Logged.call (h : Logged s) (hexact : t.members.Exact)
    (hcontent : (c.perform (historyOf s.log)).content.map Prod.fst = t.members.queue)
    (hpopped : (c.perform (historyOf s.log)).popped.map Prod.fst =
      poppedOf s.log ++ c.pops.toList)
    (hpushes : ∀ qt maxSize n r, c = .pushBackAll qt maxSize n r →
      n = min qt.length (maxSize - (historyOf s.log).content.length)) :
    Logged ⟨t, s.log ++ [c]⟩ := by
  have hconserves : (historyOf (s.log ++ [c])).Conserves := by
    rw [historyOf_call]
    exact c.perform_conserves h.conserves
  have hpopped' : (historyOf (s.log ++ [c])).popped.map Prod.fst = poppedOf (s.log ++ [c]) := by
    rw [historyOf_call, poppedOf_call]
    exact hpopped
  have hcontent' : (historyOf (s.log ++ [c])).content.map Prod.fst = t.members.queue := by
    rw [historyOf_call]
    exact hcontent
  refine ⟨⟨?_, ?_, hcontent', ?_⟩, hexact, hconserves, hpopped'⟩
  · change poppedOf (s.log ++ [c]) ++ t.members.queue = _
    rw [← hpopped', ← hcontent', ← List.map_append, hconserves.order]
  · rw [historyOf_call, QueueCall.perform_accepted, h.accepted, acceptedOf_call]
  · intro before qt maxSize n r after heq
    -- the call is the new one, or one of those before it
    rcases List.eq_nil_or_concat after with rfl | ⟨after', last, rfl⟩
    · obtain ⟨rfl, hlast⟩ := List.append_inj' heq rfl
      exact hpushes qt maxSize n r (List.singleton_inj.mp hlast)
    · have hassoc : s.log ++ [c] = before ++ .pushBackAll qt maxSize n r :: after' ++ [last] := by
        refine heq.trans ?_
        simp
      exact h.prefixes before qt maxSize n r after' (List.append_inj' hassoc rfl).1

/-- Nothing happens to the queue. -/
theorem Logged.silent (h : Logged s) (hmembers : t.members.queue = s.threads.members.queue)
    (hexact : t.members.Exact) : Logged ⟨t, s.log⟩ where
  order := by
    change _ ++ t.members.queue = _
    rw [hmembers]
    exact h.order
  accepted := h.accepted
  content := h.content.trans hmembers.symm
  prefixes := h.prefixes
  exact := hexact
  conserves := h.conserves
  popped := h.popped

theorem logged_init (maxSize : Nat) : Logged (LoggedQueue.init (α := α) maxSize) where
  order := rfl
  accepted := rfl
  content := rfl
  prefixes := by
    intro before qt maxSize n r after heq
    cases before <;> cases heq
  exact := rfl
  conserves := FifoHistory.conserves_empty
  popped := rfl

/-- **Step**: each call is an operation of the queue with its past. -/
theorem Logged.step (h : Logged s) {a : QueueAction α} (ha : BackOnly a) :
    ∃ s', loggedStep s a = .ok s' ∧ Logged s' := by
  obtain ⟨t, hstep, hexact⟩ := queueStep_exact s.threads a h.exact (backOnly_swapsEqual ha)
  refine ⟨⟨t, s.log ++ (callOf s.threads a).toList⟩, by rw [loggedStep, hstep], ?_⟩
  have hsilent : t.members.queue = s.threads.members.queue →
      Logged ⟨t, s.log ++ (none : Option (QueueCall α)).toList⟩ := by
    intro hqueue
    rw [Option.toList_none, List.append_nil]
    exact h.silent hqueue hexact
  cases a with
  | test k x =>
    dsimp only [callOf]
    cases hstep
    split
    · exact h.call h.exact h.content (h.popped.trans (List.append_nil _).symm)
        fun _ _ _ _ heq => by cases heq
    · rename_i hroom
      -- the thread goes on to the mutex, and the call is not over
      rw [if_neg hroom] at hsilent
      exact hsilent rfl
  | insert k =>
    unfold queueStep at hstep
    dsimp only at hstep
    dsimp only [callOf]
    split at hstep
    · rename_i hnone
      cases hstep
      rw [hnone]
      exact hsilent rfl
    · rename_i x hsome
      cases hstep
      rw [hsome]
      refine h.call hexact ?_ (h.popped.trans (List.append_nil _).symm)
        fun _ _ _ _ heq => by cases heq
      change ((historyOf s.log).content ++ [x].zipIdx _).map Prod.fst = s.threads.members.queue ++ [x]
      rw [List.map_append, List.zipIdx_map_fst, h.content]
  | pushBackAll qt =>
    dsimp only [callOf]
    cases hstep
    -- the room is that for the content of the history, as the counter is exact
    have hfits : s.threads.members.fits qt =
        min qt.length (s.threads.members.maxSize - (historyOf s.log).content.length) := by
      rw [QueueMembers.fits, h.exact, ← h.content, List.length_map]
    refine h.call hexact ?_ (h.popped.trans (List.append_nil _).symm) ?_
    · change ((historyOf s.log).content ++ (qt.take _).zipIdx _).map Prod.fst =
        (s.threads.members.pushBackAll 0 qt).1.queue
      rw [List.map_append, List.zipIdx_map_fst, h.content, QueueMembers.pushBackAll_eq, Nat.zero_add]
    · intro qt' maxSize n r heq
      cases heq
      rw [QueueMembers.pushBackAll_eq, Nat.zero_add]
      exact hfits
  | popFront =>
    obtain ⟨m, x, hpop, hm⟩ := h.exact.popFront
    simp only [queueStep, hpop] at hstep
    cases hstep
    simp only [callOf, hpop]
    unfold QueueMembers.popFront at hpop
    split at hpop
    · rename_i hnil
      cases hpop
      exact h.call hexact h.content (h.popped.trans (List.append_nil _).symm)
        fun _ _ _ _ heq => by cases heq
    · rename_i y rest hcons
      split at hpop
      · cases hpop
        have hcontent := h.content
        rw [hcons] at hcontent
        obtain ⟨e, rest', hhistory, rfl, hrest⟩ := List.map_eq_cons_iff.mp hcontent
        refine h.call hexact ?_ ?_ fun _ _ _ _ heq => by cases heq
        -- the content loses its first element
        · change ((historyOf s.log).content.drop 1).map Prod.fst = rest
          rw [hhistory]
          exact hrest
        -- which is the one that was popped
        · change ((historyOf s.log).popped ++ (historyOf s.log).content.take 1).map Prod.fst = _
          rw [List.map_append, h.popped, hhistory]
          rfl
      · cases hpop
  | clear =>
    cases hstep
    exact h.call rfl rfl (h.popped.trans (List.append_nil _).symm) fun _ _ _ _ heq => by cases heq
  | setMaxSize =>
    cases hstep
    exact hsilent rfl
  | pushFront | pushFrontAll | swap => exact ha.elim

/-- The call that an action completes returns the right number exactly when the number fits. -/
theorem callOf_returnsLength (s : QueueThreads α) (a : QueueAction α) :
    (∀ qt maxSize (n : Nat) (r : Int), callOf s a = some (.pushBackAll qt maxSize n r) → r = n) ↔
      FitsInt ⟨s, log⟩ a := by
  cases a with
  | pushBackAll qt =>
    have hcall : callOf s (.pushBackAll qt) = some (.pushBackAll qt s.members.maxSize
        (s.members.fits qt) (pushNum (s.members.fits qt))) := by
      dsimp only [callOf]
      rw [QueueMembers.pushBackAll_eq, Nat.zero_add]
    rw [hcall]
    constructor
    · intro h
      exact (pushNum_eq_iff _).mp (h _ _ _ _ rfl)
    · intro hfits qt' maxSize n r heq
      cases heq
      exact (pushNum_eq_iff _).mpr hfits
  | test k t =>
    refine ⟨fun _ => trivial, fun _ _ _ _ _ heq => ?_⟩
    dsimp only [callOf] at heq
    split at heq <;> cases heq
  | insert k =>
    refine ⟨fun _ => trivial, fun _ _ _ _ _ heq => ?_⟩
    obtain ⟨t, -, ht⟩ := Option.map_eq_some_iff.mp heq
    cases ht
  | popFront =>
    refine ⟨fun _ => trivial, fun _ _ _ _ _ heq => ?_⟩
    dsimp only [callOf] at heq
    split at heq <;> cases heq
  | _ => exact ⟨fun _ => trivial, fun _ _ _ _ _ heq => by cases heq⟩

theorem loggedStep_returnsLength {s s' : LoggedQueue α} {a : QueueAction α}
    (hstep : loggedStep s a = .ok s') :
    ReturnsLength s' ↔ ReturnsLength s ∧ FitsInt s a := by
  unfold loggedStep at hstep
  split at hstep
  · cases hstep
  · cases hstep
    -- the calls before were settled; only the one just completed counts
    rw [← callOf_returnsLength]
    constructor
    · intro h
      constructor
      · exact fun qt maxSize n r hmem => h qt maxSize n r (List.mem_append_left _ hmem)
      · intro qt maxSize n r hcall
        refine h qt maxSize n r (List.mem_append_right _ ?_)
        rw [hcall]
        exact List.mem_singleton.mpr rfl
    · rintro ⟨hold, hnew⟩ qt maxSize n r hmem
      rcases List.mem_append.mp hmem with hmem | hmem
      · exact hold qt maxSize n r hmem
      · exact hnew qt maxSize n r (Option.mem_toList.mp hmem)

/-- **Delivery**: in every run of `push_back`, `pop_front` and `clear` by any number of threads,
what was popped, followed by the content, is what was accepted less what was discarded; and
`push_back(qt)` returns what it has accepted exactly when that fits an `int` in each call. -/
theorem delivery (maxSize : Nat) (as : List (QueueAction α)) (has : ∀ a ∈ as, BackOnly a) :
    ∃ s, run loggedStep (.init maxSize) as = .ok s ∧ Delivers s ∧
      (ReturnsLength s ↔ Along loggedStep FitsInt (.init maxSize) as) := by
  obtain ⟨s, hrun, hlogged⟩ := run_ok (fun _ _ h ha => Logged.step h ha) (logged_init maxSize)
    (along_of_forall (p := fun a => BackOnly a) has)
  refine ⟨s, hrun, hlogged.toDelivers, ?_⟩
  have hnone : ReturnsLength (LoggedQueue.init (α := α) maxSize) := fun _ _ _ _ h => nomatch h
  rw [run_iff_along (I := fun _ => True)
    (fun _ _ _ _ hstep => ⟨trivial, loggedStep_returnsLength hstep⟩) trivial hrun]
  exact and_iff_right hnone

/-- Elements are taken out, discarded and put in again. -/
theorem delivery_mixed : ∃ s, run loggedStep (.init 2)
    [.pushBackAll ['a', 'b', 'c'], .popFront, .clear, .test 0 'b', .insert 0] = .ok s ∧
      Delivers s ∧ ReturnsLength s := by
  obtain ⟨s, hrun, hdelivers, hiff⟩ := delivery 2
    [.pushBackAll ['a', 'b', 'c'], .popFront, .clear, .test 0 'b', .insert 0] (by simp [BackOnly])
  refine ⟨s, hrun, hdelivers, hiff.mpr ?_⟩
  exact .cons_ok (by unfold FitsInt; decide) rfl (.cons_ok trivial rfl (.cons_ok trivial rfl
    (.cons_ok trivial rfl (.cons_ok trivial rfl trivial))))

theorem not_returnsLength_of_length {qt : List α} (h : qt.length = 2 ^ 31) :
    ∃ s, run loggedStep (.init (2 ^ 31)) [.pushBackAll qt] = .ok s ∧ ¬ ReturnsLength s := by
  refine ⟨_, rfl, fun hgood => ?_⟩
  have hiff := loggedStep_returnsLength (s := .init (2 ^ 31)) (a := .pushBackAll qt) rfl
  have hlt : min qt.length (2 ^ 31 - 0) < 2 ^ 31 := (hiff.mp hgood).2
  omega

/-- `2 ^ 31` elements go in, and the `int` that is returned cannot say so. -/
theorem pushBackAll_miscounts : ∃ s, run loggedStep (.init (2 ^ 31))
    [.pushBackAll (List.replicate (2 ^ 31) 'a')] = .ok s ∧ ¬ ReturnsLength s :=
  not_returnsLength_of_length List.length_replicate

end Sails.Base
