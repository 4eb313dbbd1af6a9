import Sails.Net.NetThread.Steps

/-!
# Wakeups of a net thread

A producer puts a command into the send list and then modifies the registration of `notify`,
which makes a pending event; one `epoll_wait` takes the event, and the loop over the events
taken comes to the callback `read_pipe_cb` some time later. Here the taking and the callback
are two steps, with callbacks of other events between them.

- `Watched`, `watchedStep`: a net thread with the events its loop has taken
- `Awaited`: somebody will look at the send list
- `no_lost_wakeup`: a send list with a command in it is awaited, in every reachable state
-/

namespace Sails.Net

open TransitionRun
open CMemory
open Sails.Base

/-! ## Where threads stand -/

/-- Behind `push_back` and before the notification. -/
def Pushing.notifies (p : Pushing) : Bool := decide (p.phase = .notifying)

/-- The net thread has a pop of the loop in `read_pipe_cb` to come, or is itself between its
push and its notification. -/
def NetPc.looks : NetPc → Bool
  | .draining | .handling .. | .closing .. => true
  | .requesting p _ => p.notifies
  | .waiting | .ticking _ => false

namespace NetThread

variable {server : Server} {s t : NetThread}

/-! ## The event loop around a net thread -/

/-- A net thread, and whether its event loop has taken the event of `notify` and not yet come to
its callback. -/
structure Watched where
  net : NetThread
  taken : Bool

/-- What happens next. -/
inductive WatchedAction where
  /-- `epoll_wait` returns -/
  | epollWait
  /-- the loop over the events taken comes to the one of `notify` -/
  | dispatch
  /-- any other step -/
  | other (act : Action)

/-- One step; `epoll_wait` is called when the events taken before are done with. -/
def watchedStep (server : Server) (w : Watched) : WatchedAction → Except Fault Watched
  | .epollWait =>
    match w.net.pc with
    | .waiting =>
      .ok (if w.taken = false ∧ w.net.notifyPending then
        { net := { w.net with notifyPending := false }, taken := true } else w)
    | _ => .ok w
  | .dispatch =>
    match w.net.pc with
    | .waiting =>
      .ok (if w.taken then { net := { w.net with pc := .draining }, taken := false } else w)
    | _ => .ok w
  | .other .notified => .ok w  -- done in two steps above
  | .other act =>
    match step server w.net act with
    | .error e => .error e
    | .ok t => .ok { w with net := t }

def Watched.init (server : Server) (maxSize : Nat) (now : Int) (connectors : Connectors) : Watched :=
  ⟨NetThread.init server maxSize now connectors, false⟩

/-! ## Who will look at the send list -/

/-- Somebody will look at the send list. -/
inductive Awaited (w : Watched) : Prop where
  /-- the event of `notify` is pending -/
  | pending (h : w.net.notifyPending = true)
  /-- the event was taken and its callback is to come -/
  | taken (h : w.taken = true)
  /-- the net thread has a pop to come, or a notification -/
  | looks (h : w.net.pc.looks = true)
  /-- a producer is between its push and its notification -/
  | producer (k : Nat) (p : Pushing) (h : w.net.producers k = some p) (hp : p.notifies = true)

/-! ## What a step does to them -/

/-- The send list, the event of `notify` and the producers are left alone. -/
structure SameList (s t : NetThread) : Prop where
  sendlist : t.sendlist = s.sendlist
  notify : t.notifyPending = s.notifyPending
  producers : t.producers = s.producers

theorem SameList.refl (s : NetThread) : SameList s s := ⟨rfl, rfl, rfl⟩

/-- The awaiting goes on, or the list is empty. -/
def Keeps (s t : NetThread) (taken : Bool) : Prop :=
  (s.sendlist.queue ≠ [] → Awaited ⟨s, taken⟩) → t.sendlist.queue ≠ [] → Awaited ⟨t, taken⟩

theorem SameList.keeps (h : SameList s t) (hlooks : s.pc.looks = true → t.pc.looks = true)
    (taken : Bool) : Keeps s t taken := by
  intro hs hne
  rw [h.sendlist] at hne
  cases hs hne with
  | pending hp => exact .pending (h.notify.trans hp)
  | taken ht => exact .taken ht
  | looks hl => exact .looks (hlooks hl)
  | producer k p hk hp => exact .producer k p ((congrFun h.producers k).trans hk) hp

theorem keeps_of_awaited {taken : Bool} (h : Awaited ⟨t, taken⟩) : Keeps s t taken := fun _ _ => h

/-! ## The steps of a net thread -/

theorem notifies_of_phase {p : Pushing} {phase : PushPhase} (h : p.phase = phase)
    (hne : phase ≠ .notifying) : p.notifies = false := by
  rw [Pushing.notifies, h]
  exact decide_eq_false hne

/-- A producer begins a call. -/
theorem keeps_begun {k : Nat} {p : Pushing} (hfree : s.producers k = none) (taken : Bool) :
    Keeps s (s.setProducer k (some p)) taken := by
  intro hs hne
  cases hs hne with
  | pending hp => exact .pending hp
  | taken ht => exact .taken ht
  | looks hl => exact .looks hl
  | producer j q hj hq =>
    -- the thread was in no call before
    have hjk : j ≠ k := by
      rintro rfl
      cases hfree.symm.trans hj
    exact .producer j q ((if_neg hjk).trans hj) hq

/-- A producer's step: before its push the list stays as it is, and afterwards the producer is to
notify, or has notified. -/
theorem keeps_pushed {k : Nat} {p : Pushing} {next : Option Pushing} (hk : s.producers k = some p)
    (hpush : Pushes s p t next) (taken : Bool) : Keeps s (t.setProducer k next) taken := by
  cases hpush with
  | inserted => exact keeps_of_awaited (.producer k _ (if_pos rfl) rfl)
  | notified => exact keeps_of_awaited (.pending rfl)
  | refused hphase | passed hphase | woken hphase =>
    have hnot : p.notifies = false := notifies_of_phase hphase (by decide)
    intro hs hne
    cases hs hne with
    | pending hp => exact .pending hp
    | taken ht => exact .taken ht
    | looks hl => exact .looks hl
    | producer j q hj hq =>
      -- the one to notify is another producer
      have hjk : j ≠ k := by
        rintro rfl
        cases hk.symm.trans hj
        rw [hnot] at hq
        cases hq
      exact .producer j q ((if_neg hjk).trans hj) hq

/-- A step of the net thread's own call. -/
theorem keeps_requested {p : Pushing} {rest : Option (List (MultimapEntry Int Nat))}
    {next : Option Pushing} (hpc : s.pc = .requesting p rest) (hpush : Pushes s p t next)
    (taken : Bool) : Keeps s { t with pc := afterPush rest next } taken := by
  cases hpush with
  | inserted => exact keeps_of_awaited (.looks rfl)
  | notified => exact keeps_of_awaited (.pending rfl)
  | refused hphase | passed hphase | woken hphase =>
    apply SameList.keeps
    · exact ⟨rfl, rfl, rfl⟩
    · rw [hpc, NetPc.looks, notifies_of_phase hphase (by decide)]
      exact fun hfalse => nomatch hfalse

/-- **Step**: any step but the taking of the event keeps a list that is not empty awaited. -/
theorem keeps_step {act : Action} (hact : act ≠ .notified) (h : step server s act = .ok t)
    (taken : Bool) : Keeps s t taken := by
  cases step_moves h with
  | idle | waits => exact (SameList.refl s).keeps id taken
  | begun hfree => exact keeps_begun hfree taken
  | pushed hk hpush => exact keeps_pushed hk hpush taken
  | accepted | added | registered | unregistered | readOn =>
    apply SameList.keeps
    · exact ⟨rfl, rfl, rfl⟩
    · exact id
  | notified => exact absurd rfl hact
  | drained hpc hempty =>
    -- the loop ends on an empty list
    exact fun _ hne => absurd hempty hne
  | popped => exact keeps_of_awaited (.looks rfl)
  | missed | sent | calledBack | modified | stopped | shut | removed | released =>
    apply SameList.keeps
    · exact ⟨rfl, rfl, rfl⟩
    · exact fun _ => rfl
  | requested hpc hpush => exact keeps_requested hpc hpush taken
  -- where the net thread had nothing to look at before
  | readEnded hpc | ticked hpc | checked hpc | passedOver hpc | timedOut hpc =>
    apply SameList.keeps
    · exact ⟨rfl, rfl, rfl⟩
    · rw [hpc]
      exact fun hfalse => nomatch hfalse

/-! ## Runs -/

/-- **Step**: with the taking of the event and its callback. -/
theorem watchedStep_awaited {w v : Watched} {act : WatchedAction}
    (hw : w.net.sendlist.queue ≠ [] → Awaited w) (h : watchedStep server w act = .ok v) :
    v.net.sendlist.queue ≠ [] → Awaited v := by
  cases act with
  | epollWait =>
    simp only [watchedStep] at h
    split at h
    · cases h
      split
      · exact fun _ => .taken rfl
      · exact hw
    · cases h
      exact hw
  | dispatch =>
    simp only [watchedStep] at h
    split at h
    · cases h
      split
      · exact fun _ => .looks rfl
      · exact hw
    · cases h
      exact hw
  | other act =>
    by_cases hact : act = .notified
    · subst hact
      cases h
      exact hw
    · have hstep : watchedStep server w (.other act) =
          match step server w.net act with
          | .error e => .error e
          | .ok t => .ok { w with net := t } := by
        cases act <;> first | rfl | exact absurd rfl hact
      rw [hstep] at h
      split at h
      · cases h
      · rename_i t ht
        cases h
        exact keeps_step hact ht w.taken hw

/-- **No lost wakeup**: in every reachable state with a command in the send list, the event of
`notify` is pending or taken with its callback to come, the net thread has a pop to come, or a
thread is between its push and its notification. -/
theorem no_lost_wakeup (server : Server) (maxSize : Nat) (now : Int) (connectors : Connectors)
    (as : List WatchedAction) (w : Watched)
    (hrun : run (watchedStep server) (Watched.init server maxSize now connectors) as = .ok w) :
    w.net.sendlist.queue ≠ [] → Awaited w :=
  run_invariant' (fun _ _ _ hI h => watchedStep_awaited hI h)
    (fun hne => absurd rfl hne) hrun

/-- A command is pushed while the event of the registration is being taken. -/
theorem no_lost_wakeup_pushed :
    ∃ w, run (watchedStep soleServer)
      (Watched.init soleServer ThreadQueue.defaultMaxSize 0 blankConnectors)
      [.other (.call 0 (.send (ascii "1.2.3.4") 80 1 [120])), .other (.push 0), .epollWait,
        .other (.push 0), .dispatch] = .ok w ∧
      w.net.sendlist.queue ≠ [] ∧ Awaited w :=
  ⟨_, rfl, by decide, no_lost_wakeup soleServer ThreadQueue.defaultMaxSize 0 blankConnectors
    [.other (.call 0 (.send (ascii "1.2.3.4") 80 1 [120])), .other (.push 0), .epollWait,
      .other (.push 0), .dispatch] _ rfl (by decide)⟩

end NetThread

end Sails.Net
