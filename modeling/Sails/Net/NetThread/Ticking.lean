import Sails.Net.NetThread.Simulation
import Sails.Net.NetThread.Waiting

/-!
# A run of `checkTimeout`

- `checks`: the tick begins a run of `checkTimeout`; `timesOut`: the connector on which a step of
  that run calls `set_timeout`
- `step_unlocked`: nothing else makes the net thread hold the mutex of the list
- `step_locked`: while it does, the list, the ids and the listening descriptors do not change
- `step_awaits`: a connection that the loop has yet to come to is timed out by the next step or
  still waits after it
- `tick_goesOn`, `step_left`: the loop does not fail, and ends if its close requests find room
-/

namespace Sails.Net

open TransitionRun (Fault)
open CMemory
open Sails.Base

/-- The key of the entry that the iterator of a slot points to. -/
def ConnectorList.deadline (l : ConnectorList) (slot : Nat) : Option Int :=
  match l.vConn[slot]? with
  | some d => (l.tl.entries.find? fun e => decide (e.iter = d.second)).map MultimapEntry.key
  | none => none

/-- The deadline of an occupied slot is that of an entry for the slot. -/
theorem ConnectorList.Consistent.entry_of_deadline {l : ConnectorList} {reserved added : List Nat}
    (h : l.Consistent reserved added) {slot : Nat} {k : Int} (hfirst : (l.first slot).isSome)
    (hk : l.deadline slot = some k) : ∃ e ∈ l.tl.entries, e.value = slot ∧ e.key = k := by
  obtain ⟨conn, it, -, hd⟩ := exists_keeps hfirst
  obtain ⟨e, he, hiter, hvalue⟩ := (h.linked it slot).mpr ⟨conn, hd⟩
  simp only [deadline, hd, Option.map_eq_some_iff] at hk
  obtain ⟨e', hfind, hkey⟩ := hk
  have hiter' : e'.iter = it := by simpa using List.find?_some hfind
  -- an iterator points to one entry
  cases l.tl.eq_of_iter_eq he (List.mem_of_find?_eq_some hfind) (hiter.trans hiter'.symm)
  exact ⟨e, he, hvalue, hkey⟩

namespace NetThread

variable {server : Server} {act : Action} {answer : WriteAnswer} {s t : NetThread}
  {a : ConnectorPtr}

/-! ## Where the loop stands -/

/-- The time of a tick that begins a run of `checkTimeout`. -/
def checks (server : Server) (s : NetThread) : Action → Option Int
  | .tick now =>
    match s.pc with
    | .waiting =>
      if server.index = 0 ∧ ¬ now - s.connectorList.lastTimeoutTime < 1 then some now else none
    | _ => none
  | _ => none

/-- The entries the loop has yet to come to. -/
def entriesLeft : NetPc → List (MultimapEntry Int Nat)
  | .ticking rest => rest
  | .requesting _ (some rest) => rest
  | _ => []

/-- The connector on which the step calls `set_timeout`. -/
def timesOut (s : NetThread) : Action → Option ConnectorPtr
  | .net _ =>
    match s.pc with
    | .ticking (e :: _) =>
      match s.connectorList.first e.value with
      | some conn => if (s.connectors conn).listenFd = -1 then none else some conn
      | none => none
    | _ => none
  | _ => none

/-- The loop has yet to come to the connection, and will not pass it over. -/
def Awaits (s : NetThread) (a : ConnectorPtr) : Prop :=
  (s.connectors a).listenFd ≠ -1 ∧
    ∃ e ∈ entriesLeft s.pc, s.connectorList.first e.value = some a

/-- The steps to the end of a close request that finds room. -/
def PushPhase.left : PushPhase → Nat
  | .testing => 3
  | .retrying => 4
  | .inserting => 2
  | .notifying => 1

/-- A bound for the steps to the end of the loop. -/
def left : NetPc → Nat
  | .ticking rest => 4 * rest.length + 1
  | .requesting p (some rest) => 4 * rest.length + 1 + PushPhase.left p.phase
  | _ => 0

theorem entriesLeft_of_unlocked (h : s.listLocked = false) : entriesLeft s.pc = [] := by
  unfold listLocked at h
  split at h
  · cases h
  · cases h
  · rename_i hticking hrequesting
    unfold entriesLeft
    split
    · rename_i rest hpc
      exact absurd hpc (hticking rest)
    · rename_i p rest hpc
      exact absurd hpc (hrequesting p rest)
    · rfl

theorem left_pos_of_locked (h : s.listLocked = true) : 0 < left s.pc := by
  unfold listLocked at h
  split at h
  · rename_i rest hpc
    rw [hpc]
    exact Nat.succ_pos _
  · rename_i p rest hpc
    rw [hpc, left]
    omega
  · cases h

theorem not_awaits_of_unlocked (h : s.listLocked = false) : ¬ s.Awaits a := by
  rintro ⟨-, e, he, -⟩
  rw [entriesLeft_of_unlocked h] at he
  cases he

/-! ## Only a tick takes the mutex of the list -/

theorem listLocked_of_pc (h : t.pc = s.pc) : t.listLocked = s.listLocked := by
  rw [listLocked, listLocked, h]

/-- **Unlocked**: only a tick that begins a run of `checkTimeout` takes the mutex. -/
theorem step_unlocked (hs : s.listLocked = false) (hchecks : checks server s act = none)
    (h : step server s act = .ok t) : t.listLocked = false := by
  -- only a tick and what it requests keep the list locked
  cases step_moves h with
  | idle | waits | begun | accepted | added | registered | unregistered | readOn => exact hs
  | pushed hk hpush => exact (listLocked_of_pc hpush.pc_eq).trans hs
  | readEnded hpc hget hloop hafter =>
    cases hafter with
    | resumed => rfl
    | requesting => rfl
  | ticked hpc hindex hlate =>
    simp only [checks, hpc, ite_eq_right_iff, reduceCtorEq, imp_false] at hchecks
    exact absurd ⟨hindex, hlate⟩ hchecks
  | passedOver hpc | timedOut hpc =>
    rw [listLocked, hpc] at hs
    cases hs
  | @requested _ p rest u next hpc hpush =>
    cases rest with
    | some rest =>
      rw [listLocked, hpc] at hs
      cases hs
    | none =>
      cases next with
      | some p' => rfl
      | none => rfl
  | _ => rfl

/-- And that tick does. -/
theorem step_checks {now : Int} (hchecks : checks server s act = some now)
    (h : step server s act = .ok t) :
    s.pc = .waiting ∧ server.index = 0 ∧
      t = { s with
        connectorList := { s.connectorList with lastTimeoutTime := now }
        pc := .ticking (s.connectorList.tl.upTo now) } := by
  cases act with
  | tick now' =>
    simp only [checks] at hchecks
    split at hchecks
    · rename_i hpc
      split at hchecks
      · rename_i hguard
        cases hchecks
        simp only [step, hpc, tick, if_pos hguard] at h
        cases h
        exact ⟨hpc, hguard.1, rfl⟩
      · cases hchecks
    · cases hchecks
  | _ => cases hchecks

/-! ## While the net thread holds the mutex -/

/-- The list and the listening descriptors are the same in both states. -/
structure SameEntries (s t : NetThread) : Prop where
  list : t.connectorList = s.connectorList
  listenFd : ∀ a, (t.connectors a).listenFd = (s.connectors a).listenFd

theorem SameEntries.of_eq (hlist : t.connectorList = s.connectorList)
    (hconnectors : t.connectors = s.connectors) : SameEntries s t :=
  ⟨hlist, fun _ => by rw [hconnectors]⟩

/-- The steps of the other threads. -/
theorem step_beside_locked (hs : s.listLocked = true) (hact : ∀ answer, act ≠ .net answer)
    (h : step server s act = .ok t) : SameEntries s t ∧ t.pc = s.pc := by
  cases step_moves h with
  | idle | begun => exact ⟨.of_eq rfl rfl, rfl⟩
  | pushed hk hpush =>
    cases hpush with
    | _ => exact ⟨.of_eq rfl rfl, rfl⟩
  | accepted _ _ _ hfree | added _ hfree | registered _ hfree | unregistered _ hfree =>
    -- the acceptor waits for the mutex
    cases hs.symm.trans hfree
  | notified hpc | readEnded hpc | readOn hpc | ticked hpc =>
    rw [listLocked, hpc] at hs
    cases hs
  | _ => exact absurd rfl (hact _)

/-- After a close request made in the loop. -/
theorem AfterRequest.inLoop {c : Connector} {reason : CloseConnectorReason}
    {rest : List (MultimapEntry Int Nat)} {pc : NetPc}
    (h : AfterRequest c reason (some rest) pc) (hpc : t.pc = pc) :
    t.listLocked = true ∧ entriesLeft t.pc = rest ∧ left t.pc ≤ 4 * rest.length + 4 := by
  rw [listLocked, hpc]
  cases h with
  | resumed =>
    refine ⟨rfl, rfl, ?_⟩
    change 4 * rest.length + 1 ≤ _
    omega
  | requesting hcmd => exact ⟨rfl, rfl, Nat.le_refl _⟩

/-- A round of the loop. -/
structure Round (s t : NetThread) (e : MultimapEntry Int Nat) (rest : List (MultimapEntry Int Nat))
    (conn : ConnectorPtr) : Prop where
  found : s.connectorList.first e.value = some conn
  same : SameEntries s t
  locked : t.listLocked = true
  entries : entriesLeft t.pc = rest
  left : left t.pc ≤ 4 * rest.length + 4
  /-- the connector is timed out, unless it is passed over -/
  timeout : (s.connectors conn).listenFd ≠ -1 → (t.connectors conn).isTimeout = true

theorem sameEntries_setIsTimeout (s : NetThread) (conn : ConnectorPtr) :
    SameEntries s (s.setConnector conn (s.connectors conn).setIsTimeout) := by
  refine ⟨rfl, ?_⟩
  intro b
  change (s.connectors.set conn _ b).listenFd = _
  by_cases hb : b = conn
  · subst hb
    rw [Connectors.set_self]
    rfl
  · rw [Connectors.set_ne hb]

/-- A step inside a close request made in the loop. -/
structure RequestStep (s t : NetThread) (p : Pushing) (rest : List (MultimapEntry Int Nat)) :
    Prop where
  same : SameEntries s t
  locked : t.listLocked = true
  entries : entriesLeft t.pc = rest
  left : p.phase ≠ .retrying → (p.phase = .testing → s.sendlist.isFull = false) →
    left t.pc < 4 * rest.length + 1 + PushPhase.left p.phase

theorem requestStep {p : Pushing} {rest : List (MultimapEntry Int Nat)} {u : NetThread}
    {next : Option Pushing} (hpush : Pushes s p u next) :
    RequestStep s { u with pc := afterPush (some rest) next } p rest := by
  obtain ⟨d, phase⟩ := p
  cases hpush with
  | refused hphase hfull =>
    refine ⟨.of_eq rfl rfl, rfl, rfl, ?_⟩
    intro _ hroom
    rw [hroom hphase] at hfull
    cases hfull
  | woken hphase => exact ⟨.of_eq rfl rfl, rfl, rfl, fun hne => absurd hphase hne⟩
  | passed hphase | inserted hphase | notified hphase =>
    cases hphase
    exact ⟨.of_eq rfl rfl, rfl, rfl, fun _ _ => Nat.lt_succ_self _⟩

/-- The steps of the net thread itself: the end of the loop, a round, or a close request. -/
theorem netStep_locked (hs : s.listLocked = true) (h : netStep server s answer = .ok t) :
    (s.pc = .ticking [] ∧ t = { s with pc := .waiting }) ∨
    (∃ e rest conn, s.pc = .ticking (e :: rest) ∧ Round s t e rest conn) ∨
    (∃ p rest, s.pc = .requesting p (some rest) ∧ RequestStep s t p rest) := by
  cases netStep_moves h with
  | idle hact => exact absurd rfl (hact answer)
  | checked hpc => exact .inl ⟨hpc, rfl⟩
  | @passedOver _ e rest conn hpc hfirst hlisten =>
    refine .inr (.inl ⟨e, rest, conn, hpc, ?_⟩)
    exact
      { found := hfirst
        same := .of_eq rfl rfl
        locked := rfl
        entries := rfl
        left := by
          change 4 * rest.length + 1 ≤ _
          omega
        timeout := fun hne => absurd hlisten hne }
  | @timedOut _ e rest conn pc hpc hfirst hlisten hafter =>
    refine .inr (.inl ⟨e, rest, conn, hpc, ?_⟩)
    have hset := sameEntries_setIsTimeout s conn
    obtain ⟨hlocked, hentries, hleft⟩ := hafter.inLoop
      (t := { s.setConnector conn (s.connectors conn).setIsTimeout with pc := pc }) rfl
    exact
      { found := hfirst
        same := ⟨hset.list, hset.listenFd⟩
        locked := hlocked
        entries := hentries
        left := hleft
        timeout := by
          intro _
          change (s.connectors.set conn (s.connectors conn).setIsTimeout conn).isTimeout = true
          rw [Connectors.set_self]
          rfl }
  | @requested _ p rest u next hpc hpush =>
    cases rest with
    | none =>
      rw [listLocked, hpc] at hs
      cases hs
    | some rest => exact .inr (.inr ⟨p, rest, hpc, requestStep hpush⟩)
  -- elsewhere the net thread does not hold the mutex
  | waits hpc | drained hpc | popped hpc | missed hpc | sent hpc | calledBack hpc | modified hpc
  | stopped hpc | shut hpc | removed hpc | released hpc =>
    rw [listLocked, hpc] at hs
    cases hs

/-- **Locked**: the list does not change, and no entry comes in. -/
theorem step_locked (hs : s.listLocked = true) (h : step server s act = .ok t) :
    SameEntries s t ∧ ∀ e ∈ entriesLeft t.pc, e ∈ entriesLeft s.pc := by
  by_cases hact : ∀ answer, act ≠ .net answer
  · obtain ⟨hsame, hpc⟩ := step_beside_locked hs hact h
    rw [hpc]
    exact ⟨hsame, fun _ he => he⟩
  · rw [not_forall_not] at hact
    obtain ⟨answer, rfl⟩ := hact
    rcases netStep_locked hs h with ⟨hpc, rfl⟩ | ⟨e, rest, conn, hpc, hround⟩ | ⟨p, rest, hpc, hreq⟩
    · exact ⟨.of_eq rfl rfl, fun _ he => nomatch he⟩
    · rw [hround.entries, hpc]
      exact ⟨hround.same, fun _ he => List.mem_cons_of_mem _ he⟩
    · rw [hreq.entries, hpc]
      exact ⟨hreq.same, fun _ he => he⟩

theorem Awaits.of_same (h : SameEntries s t) (ha : s.Awaits a)
    (hentries : ∀ e ∈ entriesLeft s.pc, s.connectorList.first e.value = some a →
      e ∈ entriesLeft t.pc) : t.Awaits a := by
  obtain ⟨hlisten, e, he, hfirst⟩ := ha
  refine ⟨by rwa [h.listenFd], e, hentries e he hfirst, ?_⟩
  rwa [h.list]

/-- **Awaiting**: the loop comes to every connection it has not passed over. -/
theorem step_awaits (h : step server s act = .ok t) (ha : s.Awaits a) :
    s.timesOut act = some a ∨ t.Awaits a := by
  have hs : s.listLocked = true := by
    by_contra hunlocked
    exact not_awaits_of_unlocked (Bool.eq_false_iff.mpr hunlocked) ha
  -- the threads beside the net thread leave the entries of the tick alone
  by_cases hact : ∀ answer, act ≠ .net answer
  · obtain ⟨hsame, hpc⟩ := step_beside_locked hs hact h
    refine .inr (ha.of_same hsame ?_)
    rw [hpc]
    exact fun _ he _ => he
  · rw [not_forall_not] at hact
    obtain ⟨answer, rfl⟩ := hact
    rcases netStep_locked hs h with ⟨hpc, -⟩ | ⟨e, rest, conn, hpc, hround⟩ | ⟨p, rest, hpc, hreq⟩
    · obtain ⟨-, e, he, -⟩ := ha
      rw [hpc] at he
      cases he
    · by_cases hconn : conn = a
      · subst hconn
        left
        simp only [timesOut, hpc, hround.found, if_neg ha.1]
      -- the entry is another connection's
      · refine .inr (ha.of_same hround.same ?_)
        intro e' he' hfirst
        rw [hpc] at he'
        rw [hround.entries]
        rcases List.mem_cons.mp he' with rfl | hrest
        · exact absurd (Option.some.inj (hround.found.symm.trans hfirst)) hconn
        · exact hrest
    · refine .inr (ha.of_same hreq.same ?_)
      -- pushing the close of another connection leaves them alone too
      intro e he _
      rw [hpc] at he
      rwa [hreq.entries]

/-- What `timesOut` names is timed out, in the loop. -/
theorem step_timesOut (hout : s.timesOut act = some a) (h : step server s act = .ok t) :
    s.listLocked = true ∧ (t.connectors a).isTimeout = true := by
  cases act with
  | net answer =>
    simp only [timesOut] at hout
    split at hout
    · rename_i e rest hpc
      split at hout
      · rename_i conn hfound
        split at hout
        · cases hout
        · rename_i hlisten
          cases hout
          have hlocked : s.listLocked = true := by rw [listLocked, hpc]
          refine ⟨hlocked, ?_⟩
          -- of the steps under the lock the round over this entry is the one
          rcases netStep_locked hlocked h with ⟨hpc', -⟩ | ⟨e', rest', conn', hpc', hround⟩ |
            ⟨p, rest', hpc', -⟩
          · cases hpc.symm.trans hpc'
          · cases hpc.symm.trans hpc'
            cases hfound.symm.trans hround.found
            exact hround.timeout hlisten
          · cases hpc.symm.trans hpc'
      · cases hout
    · cases hout
  | _ => cases hout

/-- **The loop ends**: its steps bring the end nearer, if its close requests find room. -/
theorem step_left (hs : s.listLocked = true) (hawake : s.Awake)
    (hroom : s.RoomForOwn (.net answer)) (h : step server s (.net answer) = .ok t) :
    left t.pc < left s.pc := by
  rcases netStep_locked hs h with ⟨hpc, rfl⟩ | ⟨e, rest, conn, hpc, hround⟩ | ⟨p, rest, hpc, hreq⟩
  · rw [hpc]
    exact Nat.succ_pos _
  · have hleft := hround.left
    rw [hpc]
    change _ < 4 * (rest.length + 1) + 1
    omega
  · rw [hpc]
    obtain ⟨d, phase⟩ := p
    apply hreq.left
    · rintro hphase
      cases hphase
      exact hawake d (some rest) hpc
    · intro hphase
      cases hphase
      exact hroom d (some rest) hpc

/-- **The loop goes on**: it meets occupied slots only. -/
theorem tick_goesOn (hwf : s.Wf) (hs : s.listLocked = true)
    (hentries : ∀ e ∈ entriesLeft s.pc, e ∈ s.connectorList.tl.entries) :
    ∃ t, netStep server s answer = .ok t := by
  cases hpc : s.pc with
  | ticking entries =>
    simp only [netStep, hpc]
    cases entries with
    | nil => exact ⟨_, rfl⟩
    | cons e rest =>
      obtain ⟨added, hcons⟩ := hwf.consistent
      have he : e ∈ s.connectorList.tl.entries := by
        apply hentries
        rw [hpc]
        exact List.mem_cons_self ..
      -- an entry of the timeouts is that of an occupied slot
      have hkeeps := (hcons.linked _ _).mp ⟨e, he, rfl, rfl⟩
      obtain ⟨conn, hfound⟩ := Option.isSome_iff_exists.mp (ConnectorList.isSome_first_of_keeps hkeeps)
      simp only [tickStep, hfound]
      split <;> exact ⟨_, rfl⟩
  | requesting p rest =>
    simp only [netStep, hpc]
    split <;> exact ⟨_, rfl⟩
  | _ =>
    rw [listLocked, hpc] at hs
    cases hs

/-! ## What a run of `checkTimeout` begins with -/

/-- A live connection whose deadline has passed; the listening port of a datagram server has
none. -/
def isDue (s : NetThread) (now : Int) (a : ConnectorPtr) : Bool :=
  s.isListed a && (s.connectors a).isOpen && decide ((s.connectors a).listenFd ≠ -1) &&
    (s.connectorList.deadline (slotOf (s.connectors a).id)).any fun k => decide (k ≤ now)

/-- The loop will come to every connection that is due. -/
theorem checks_awaits {now : Int} (hwf : s.Wf) (hchecks : checks server s act = some now)
    (h : step server s act = .ok t) (hdue : s.isDue now a = true) : t.Awaits a := by
  obtain ⟨-, -, rfl⟩ := step_checks hchecks h
  simp only [isDue, Bool.and_eq_true, decide_eq_true_eq, Option.any_eq_true] at hdue
  obtain ⟨⟨⟨hlisted, -⟩, hlisten⟩, k, hk, hle⟩ := hdue
  have hfirst := isListed_iff.mp hlisted
  obtain ⟨added, hcons⟩ := hwf.consistent
  obtain ⟨e, he, hvalue, hkey⟩ := hcons.entry_of_deadline (Option.isSome_of_eq_some hfirst) hk
  refine ⟨hlisten, e, ?_, ?_⟩
  · rw [← hkey] at hle
    exact OrderedMultimap.mem_upTo.mpr ⟨he, hle⟩
  · rw [hvalue]
    exact hfirst

end NetThread

end Sails.Net
