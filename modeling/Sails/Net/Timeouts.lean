import Sails.Net.NetThread.Ticking
import Sails.Net.NetThreads

/-!
# Idle connections

- `Timeouts`, `timeoutsStep`: the net threads, with a record of the last run of `checkTimeout`
- `idle_connections_time_out`: a run that is over has timed out every connection that was due when
  it began, exactly if all of them were on the first net thread
- `idle_connection_stays`: a connection of another net thread is passed by
-/

namespace Sails.Net

open TransitionRun
open CMemory
open Sails.Base

/-- A step of net thread `thread` or of a thread beside it. -/
structure ThreadAction where
  thread : Nat
  act : NetThread.Action

/-- The net threads, and what is known of the last run of `checkTimeout`. -/
structure Timeouts where
  threads : NetThreads
  /-- the connections that were due when it began, by net thread -/
  due : Nat → ConnectorPtr → Bool
  /-- those on which `set_timeout` has been called since -/
  timedOut : Nat → ConnectorPtr → Bool
  /-- the steps of the first net thread since -/
  taken : Nat
  /-- a bound for them -/
  allowed : Nat

namespace Timeouts

variable {n : Nat} {parseImp : Connector → Buffer × ExtData} {w w' : Timeouts}

/-- As the server starts. -/
def init (n : Nat) (parseImp : Connector → Buffer × ExtData) (maxSize : Nat) (now : Nat → Int)
    (connectors : Nat → Connectors) : Timeouts where
  threads := NetThreads.init n parseImp maxSize now connectors
  due := fun _ _ => false
  timedOut := fun _ _ => false
  taken := 0
  allowed := 0

/-- Net thread `i` goes to state `t` and begins a run of `checkTimeout`. -/
def beginCheck (w : Timeouts) (n i : Nat) (t : NetThread) (now : Int) : Timeouts where
  threads := w.threads.set i t
  due := fun j a => decide (j < n) && (w.threads j).isDue now a
  timedOut := fun _ _ => false
  taken := 0
  allowed := 4 * ((w.threads i).connectorList.tl.upTo now).length + 1

/-- The action as a step of the first net thread. -/
def ownSteps (i : Nat) : NetThread.Action → Nat
  | .net _ => if i = 0 then 1 else 0
  | _ => 0

/-- Net thread `i` goes to state `t` with any other step. -/
def goOn (w : Timeouts) (i : Nat) (act : NetThread.Action) (t : NetThread) : Timeouts :=
  { w with
    threads := w.threads.set i t
    timedOut := fun j a => w.timedOut j a || decide (j = i ∧ (w.threads i).timesOut act = some a)
    taken := w.taken + ownSteps i act }

/-- One step. -/
def timeoutsStep (n : Nat) (parseImp : Connector → Buffer × ExtData) (w : Timeouts)
    (m : ThreadAction) : Except Fault Timeouts :=
  if m.thread < n then
    match NetThread.step (threadServer n parseImp m.thread) (w.threads m.thread) m.act with
    | .error e => .error e
    | .ok t =>
      match NetThread.checks (threadServer n parseImp m.thread) (w.threads m.thread) m.act with
      | some now => .ok (w.beginCheck n m.thread t now)
      | none => .ok (w.goOn m.thread m.act t)
  else .ok w

/-- The first net thread is in a run of `checkTimeout`. -/
def InTick (w : Timeouts) : Prop := (w.threads 0).listLocked = true

/-- If the first net thread is about to test its own list in `close_connector`, the list has
room. -/
def OwnRoom (w : Timeouts) (m : ThreadAction) : Prop :=
  m.thread = 0 → (w.threads 0).RoomForOwn m.act

/-- What holds of the last run of `checkTimeout`. -/
structure Checked (n : Nat) (parseImp : Connector → Buffer × ExtData) (w : Timeouts) : Prop where
  /-- once it is over every connection that was due is timed out, exactly if they were all on the
  first net thread -/
  complete : ¬ w.InTick →
    ((∀ i a, w.due i a = true → w.timedOut i a = true) ↔ ∀ i a, w.due i a = true → i = 0)
  /-- until then the next step does not fail -/
  goesOn : w.InTick → ∀ answer,
    ∃ t, NetThread.netStep (threadServer n parseImp 0) (w.threads 0) answer = .ok t
  /-- and so many steps are enough -/
  ends : w.InTick → w.taken < w.allowed

/-- What every run keeps. -/
structure TimeoutsOk (n : Nat) (w : Timeouts) : Prop where
  wf : ∀ i, i < n → (w.threads i).Wf
  started : w.InTick → 0 < n
  /-- no other net thread has the timer -/
  alone : ∀ i, i ≠ 0 → (w.threads i).listLocked = false
  first : ∀ i a, w.timedOut i a = true → i = 0
  waits : ∀ a, w.due 0 a = true → w.timedOut 0 a = true ∨ (w.threads 0).Awaits a
  entries : ∀ e ∈ NetThread.entriesLeft (w.threads 0).pc, e ∈ (w.threads 0).connectorList.tl.entries
  awake : (w.threads 0).Awake
  bounded : w.InTick → w.taken + NetThread.left (w.threads 0).pc ≤ w.allowed

theorem TimeoutsOk.checked (h : TimeoutsOk n w) : w.Checked n parseImp where
  complete := by
    intro hover
    constructor
    · exact fun hall i a hdue => h.first i a (hall i a hdue)
    · intro hfirst i a hdue
      obtain rfl := hfirst i a hdue
      -- nothing is left for the loop to come to
      refine (h.waits a hdue).resolve_right ?_
      exact NetThread.not_awaits_of_unlocked (Bool.eq_false_iff.mpr hover)
  goesOn := by
    intro hin answer
    exact NetThread.tick_goesOn (h.wf 0 (h.started hin)) hin h.entries
  ends := by
    intro hin
    have hbound := h.bounded hin
    have hpos := NetThread.left_pos_of_locked hin
    omega

theorem timeoutsOk_init (n : Nat) (parseImp : Connector → Buffer × ExtData) (maxSize : Nat)
    (now : Nat → Int) (connectors : Nat → Connectors) :
    TimeoutsOk n (init n parseImp maxSize now connectors) where
  wf := fun i _ => NetThread.wf_init (threadServer n parseImp i) maxSize (now i) _
  started := fun h => nomatch h
  alone := fun _ _ => rfl
  first := fun _ _ h => nomatch h
  waits := fun _ h => nomatch h
  entries := fun _ h => nomatch h
  awake := fun _ _ h => nomatch h
  bounded := fun h => nomatch h

variable {act : NetThread.Action} {t : NetThread}

/-- **Begin**: a tick of the first net thread. -/
theorem TimeoutsOk.begin {now : Int} (h : TimeoutsOk n w) (hn : 0 < n)
    (hroom : (w.threads 0).RoomForOwn act)
    (hchecks : NetThread.checks (threadServer n parseImp 0) (w.threads 0) act = some now)
    (hstep : NetThread.step (threadServer n parseImp 0) (w.threads 0) act = .ok t) :
    TimeoutsOk n (w.beginCheck n 0 t now) := by
  have hself : (w.beginCheck n 0 t now).threads 0 = t := NetThreads.set_self w.threads 0 t
  have hother : ∀ i, i ≠ 0 → (w.beginCheck n 0 t now).threads i = w.threads i :=
    fun i hi => NetThreads.set_ne hi
  obtain ⟨-, -, ht⟩ := NetThread.step_checks hchecks hstep
  obtain ⟨events, hsim⟩ := NetThread.step_simulates (h.wf 0 hn) hstep
  constructor
  case wf =>
    intro i hi
    by_cases hi0 : i = 0
    · rw [hi0, hself]
      exact hsim.wf
    · rw [hother i hi0]
      exact h.wf i hi
  case started =>
    exact fun _ => hn
  case alone =>
    intro i hi
    rw [hother i hi]
    exact h.alone i hi
  case first =>
    exact fun _ _ hfalse => nomatch hfalse
  case waits =>
    intro a hdue
    right
    rw [hself]
    exact NetThread.checks_awaits (h.wf 0 hn) hchecks hstep (Bool.and_eq_true_iff.mp hdue).2
  case entries =>
    rw [hself, ht]
    exact fun e he => (OrderedMultimap.mem_upTo.mp he).1
  case awake =>
    rw [hself]
    exact NetThread.step_awake h.awake hroom hstep
  case bounded =>
    intro _
    rw [hself, ht]
    exact Nat.le_of_eq (Nat.zero_add _)

/-- **Go on**: any other step. -/
theorem TimeoutsOk.goOn {i : Nat} (h : TimeoutsOk n w) (hi : i < n)
    (hroom : i = 0 → (w.threads 0).RoomForOwn act)
    (hchecks : NetThread.checks (threadServer n parseImp i) (w.threads i) act = none)
    (hstep : NetThread.step (threadServer n parseImp i) (w.threads i) act = .ok t) :
    TimeoutsOk n (w.goOn i act t) := by
  have hself : (w.goOn i act t).threads i = t := NetThreads.set_self w.threads i t
  have hother : ∀ j, j ≠ i → (w.goOn i act t).threads j = w.threads j :=
    fun j hj => NetThreads.set_ne hj
  obtain ⟨events, hsim⟩ := NetThread.step_simulates (h.wf i hi) hstep
  -- a run of `checkTimeout` that is going on was going on before
  have hin : (w.goOn i act t).InTick → w.InTick := by
    intro hin
    by_contra hnot
    have hunlocked : (w.threads 0).listLocked = false := Bool.eq_false_iff.mpr hnot
    by_cases hi0 : i = 0
    · subst hi0
      have hlocked := NetThread.step_unlocked hunlocked hchecks hstep
      rw [InTick, hself, hlocked] at hin
      cases hin
    · rw [InTick, hother 0 (Ne.symm hi0)] at hin
      exact hnot hin
  constructor
  case wf =>
    intro j hj
    by_cases hji : j = i
    · rw [hji, hself]
      exact hsim.wf
    · rw [hother j hji]
      exact h.wf j hj
  case started =>
    exact fun hin' => h.started (hin hin')
  case alone =>
    intro j hj
    by_cases hji : j = i
    · subst hji
      rw [hself]
      exact NetThread.step_unlocked (h.alone j hj) hchecks hstep
    · rw [hother j hji]
      exact h.alone j hj
  case first =>
    intro j a hout
    rcases Bool.or_eq_true_iff.mp hout with hold | hnew
    · exact h.first j a hold
    -- the other net threads are in no run of `checkTimeout`
    · obtain ⟨rfl, hout⟩ := of_decide_eq_true hnew
      by_contra hj
      have hlocked := (NetThread.step_timesOut hout hstep).1
      rw [h.alone j hj] at hlocked
      cases hlocked
  case waits =>
    intro a hdue
    rcases h.waits a hdue with hold | hwaits
    · exact .inl (Bool.or_eq_true_iff.mpr (.inl hold))
    · by_cases hi0 : i = 0
      · subst hi0
        rw [hself]
        rcases NetThread.step_awaits hstep hwaits with hout | hwaits'
        · exact .inl (Bool.or_eq_true_iff.mpr (.inr (decide_eq_true ⟨rfl, hout⟩)))
        · exact .inr hwaits'
      · rw [hother 0 (Ne.symm hi0)]
        exact .inr hwaits
  case entries =>
    by_cases hi0 : i = 0
    · subst hi0
      rw [hself]
      cases hlocked : t.listLocked with
      | false =>
        rw [NetThread.entriesLeft_of_unlocked hlocked]
        exact fun _ he => nomatch he
      | true =>
        have hin' : w.InTick := hin (by rw [InTick, hself, hlocked])
        obtain ⟨hsame, hentries⟩ := NetThread.step_locked hin' hstep
        intro e he
        rw [hsame.list]
        exact h.entries e (hentries e he)
    · rw [hother 0 (Ne.symm hi0)]
      exact h.entries
  case awake =>
    by_cases hi0 : i = 0
    · subst hi0
      rw [hself]
      exact NetThread.step_awake h.awake (hroom rfl) hstep
    · rw [hother 0 (Ne.symm hi0)]
      exact h.awake
  case bounded =>
    intro hin'
    have hbound := h.bounded (hin hin')
    change w.taken + ownSteps i act + _ ≤ w.allowed
    by_cases hi0 : i = 0
    · subst hi0
      rw [hself]
      by_cases hact : ∀ answer, act ≠ .net answer
      · obtain ⟨-, hpc⟩ := NetThread.step_beside_locked (hin hin') hact hstep
        have hown : ownSteps 0 act = 0 := by
          cases act with
          | net answer => exact absurd rfl (hact answer)
          | _ => rfl
        rw [hpc, hown]
        exact hbound
      · rw [not_forall_not] at hact
        obtain ⟨answer, rfl⟩ := hact
        have hleft := NetThread.step_left (hin hin') h.awake (hroom rfl) hstep
        have hown : ownSteps 0 (.net answer) = 1 := rfl
        omega
    · have hown : ownSteps i act = 0 := by
        cases act with
        | net answer => exact if_neg hi0
        | _ => rfl
      rw [hother 0 (Ne.symm hi0), hown]
      exact hbound

/-- **Step**: one step keeps the record of the last run of `checkTimeout` right. -/
theorem TimeoutsOk.step {m : ThreadAction} (h : TimeoutsOk n w) (hroom : w.OwnRoom m)
    (hstep : timeoutsStep n parseImp w m = .ok w') : TimeoutsOk n w' := by
  obtain ⟨i, act⟩ := m
  simp only [timeoutsStep] at hstep
  split at hstep
  · rename_i hi
    split at hstep
    · cases hstep
    · rename_i t hthread
      split at hstep
      · rename_i now hchecks
        cases hstep
        -- only the first net thread has the timer
        obtain rfl : i = 0 := (NetThread.step_checks hchecks hthread).2.1
        exact h.begin hi (hroom rfl) hchecks hthread
      · rename_i hchecks
        cases hstep
        exact h.goOn hi hroom hchecks hthread
  · cases hstep
    exact h

/-- **Idle connections**: in every run in which the first net thread's own tests find room, a run
of `checkTimeout` ends, and has then timed out all connections that were due when it began exactly
if they were all on the first net thread. -/
theorem idle_connections_time_out (n : Nat) (parseImp : Connector → Buffer × ExtData)
    (maxSize : Nat) (now : Nat → Int) (connectors : Nat → Connectors) (ms : List ThreadAction)
    (w : Timeouts)
    (hroom : Along (timeoutsStep n parseImp) OwnRoom (init n parseImp maxSize now connectors) ms)
    (hrun : run (timeoutsStep n parseImp) (init n parseImp maxSize now connectors) ms = .ok w) :
    w.Checked n parseImp := by
  have hok : TimeoutsOk n w := run_invariant (fun w m w' h hP hstep => h.step hP hstep)
    (timeoutsOk_init n parseImp maxSize now connectors) hroom hrun
  exact hok.checked

/-! ## One connection -/

/-- A server with `n` net threads, as it starts. -/
def start (n : Nat) : Timeouts :=
  init n NetThread.soleServer.parseImp ThreadQueue.defaultMaxSize (fun _ => 0)
    fun _ => NetThread.blankConnectors

/-- Net thread `i` gets a connection that is idle for ten seconds; after twenty the timer fires. -/
def openAndTick (i : Nat) : List ThreadAction :=
  NetThread.opening.map (.mk i) ++ [⟨0, .tick 20⟩, ⟨0, .net (.took 0)⟩]

/-- The steps of the close request, and the end of the loop. -/
def finishTick : List ThreadAction := List.replicate 4 ⟨0, .net (.took 0)⟩

set_option maxRecDepth 20000 in
/-- A server with one net thread times the connection out. -/
theorem idle_connections_time_out_sole :
    ∃ w, run (timeoutsStep 1 NetThread.soleServer.parseImp) (start 1)
      (openAndTick 0 ++ finishTick) = .ok w ∧ ¬ w.InTick ∧ w.due 0 0 = true ∧
      w.timedOut 0 0 = true ∧ w.Checked 1 NetThread.soleServer.parseImp := by
  refine ⟨_, rfl, Bool.false_ne_true, rfl, rfl, idle_connections_time_out 1
    NetThread.soleServer.parseImp ThreadQueue.defaultMaxSize (fun _ => 0)
    (fun _ => NetThread.blankConnectors) (openAndTick 0 ++ finishTick) _ ?_ rfl⟩
  refine .cons_ok (fun _ => trivial) rfl (.cons_ok (fun _ => trivial) rfl ?_)
  refine .cons_ok (fun _ => trivial) rfl (.cons_ok (fun _ => trivial) rfl ?_)
  refine .cons_ok (fun _ _ _ _ => rfl) rfl (.cons_ok (fun _ _ _ _ => rfl) rfl ?_)
  refine .cons_ok (fun _ _ _ _ => rfl) rfl (.cons_ok (fun _ _ _ _ => rfl) rfl ?_)
  exact .cons_ok (fun _ _ _ _ => rfl) rfl trivial

set_option maxRecDepth 20000 in
/-- With two net threads descriptor 7 is the second one's, and the same tick passes its connection
by. -/
theorem idle_connection_stays :
    ∃ w, run (timeoutsStep 2 NetThread.soleServer.parseImp) (start 2) (openAndTick 1) = .ok w ∧
      ¬ w.InTick ∧ w.due 1 0 = true ∧ w.timedOut 1 0 = false :=
  ⟨_, rfl, fun h => (nomatch h), rfl, rfl⟩

end Timeouts

end Sails.Net
