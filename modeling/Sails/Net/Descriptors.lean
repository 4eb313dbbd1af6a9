import Sails.Net.Connections.Settled
import Sails.Net.NetThread.Accepted
import Sails.Net.NetThread.Lifecycle
import Sails.Net.NetThreads
import Mathlib.Data.List.Pairwise

/-!
# Accepted descriptors

- `Acceptance`, `acceptanceStep`: the net threads and the thread in `accept_socket`, with a record
  of every descriptor that `accept` has returned
- `Accounted`: the descriptor was closed exactly once, or exactly one connector in the list of
  net thread `fd % n` has it
- `descriptors_accounted`: between callbacks every descriptor is accounted for, as long as every
  accepted address is allowed
-/

namespace Sails.Net

open TransitionRun
open CMemory
open Connections
open Sails.Base

namespace NetThread

variable {server : Server} {act : Action} {s t : NetThread} {a : ConnectorPtr}

/-! ## One net thread -/

/-- `event_ctl` refuses no connection that has been closed since `list.add`. -/
def RefusesLive (s : NetThread) (act : Action) : Prop :=
  act = .register false → ∀ a, s.acceptor = .added a → s.listLocked = false →
    s.isListed a = true ∧ ∀ stage uid, s.pc ≠ .closing stage a uid

/-- The lives of the connections agree with the state, and all are settled. -/
structure DescriptorsOk (s : NetThread) : Prop where
  wf : s.Wf
  lives : ∀ a, s.abs.Lived a s.log
  settled : ∀ a, s.abs.Settled a s.log

/-- A connection is removed while it is being added: `event_ctl` has refused it. -/
theorem refused_of_removed {events : List NetEvent} (hsim : Simulated act s t events)
    (hstep : step server s act = .ok t) (hadding : s.acceptor = .added a)
    (hidle : t.acceptor = .idle) (hmem : .removed a ∈ events) :
    act = .register false ∧ s.listLocked = false ∧
      t.log = s.log ++ .removed a :: if s.holds a then [] else
        (s.connectors a).destructor.toList.map (.closeFd a) := by
  cases step_moves hstep with
  | registered =>
    -- then nothing is removed
    have hlog := hsim.log
    rw [List.self_eq_append_right.mp hlog] at hmem
    cases hmem
  | unregistered hadded hfree hdel =>
    cases hadding.symm.trans hadded
    exact ⟨rfl, hfree, rfl⟩
  | accepted hfree => cases hadding.symm.trans hfree
  | added hnumbered => cases hadding.symm.trans hnumbered
  | pushed hk hpush | requested hpc hpush =>
    -- the acceptor stands where it stood
    cases hadding.symm.trans (hpush.sameTable.acceptor.symm.trans hidle)
  | _ => cases hadding.symm.trans hidle

/-- A live connection that `event_ctl` refuses is destroyed. -/
theorem refused_destroyed (h : s.Wf) {conn : ConnectorPtr} (hlisted : s.isListed conn = true)
    (hnot : ∀ stage uid, s.pc ≠ .closing stage conn uid)
    (hlog : t.log = s.log ++ .removed conn :: if s.holds conn then [] else
      (s.connectors conn).destructor.toList.map (.closeFd conn)) :
    t.log = s.log ++ [.removed conn, .closeFd conn (s.connectors conn).connectFd] := by
  -- no close is under way, so no other pointer is left
  have hholds : s.holds conn = false := by
    unfold holds
    split
    · rename_i stage held uid heq
      apply beq_false_of_ne
      rintro rfl
      exact hnot stage uid heq
    · rfl
  -- and the connection is open, so that the destructor closes its descriptor
  have hopen : (s.connectors conn).isOpen = true := by
    rcases h.isOpen _ _ (isListed_iff.mp hlisted) with hopen | ⟨uid, hclosing⟩
    · exact hopen
    · exact absurd hclosing (hnot .del uid)
  have hdestructor : (s.connectors conn).destructor = some (s.connectors conn).connectFd := by
    rw [Connector.destructor, Connector.isClosed_of_isOpen hopen]
    rfl
  rw [hlog, hholds, hdestructor]
  rfl

theorem descriptorsOk_init (server : Server) (maxSize : Nat) (now : Int) (connectors : Connectors) :
    (init server maxSize now connectors).DescriptorsOk where
  wf := wf_init server maxSize now connectors
  lives := by
    intro a
    rw [abs_init]
    exact .empty a
  settled := by
    intro a
    rw [abs_init]
    exact .inr fun p hp => nomatch hp

/-- **Step**: one net thread keeps its descriptors in order. -/
theorem step_descriptorsOk (h : s.DescriptorsOk) (hlive : s.RefusesLive act)
    (hstep : step server s act = .ok t) : t.DescriptorsOk := by
  obtain ⟨events, hsim⟩ := step_simulates h.wf hstep
  have hrefused : Connections.RefusesLive s.abs t.abs events := by
    intro b hadding hidle hmem
    obtain ⟨hact, hunlocked, -⟩ := refused_of_removed hsim hstep hadding hidle hmem
    obtain ⟨hlisted, hnot⟩ := hlive hact b hadding hunlocked
    refine ⟨hlisted, ?_⟩
    rintro ⟨stage, hstage⟩
    obtain ⟨uid, hpc⟩ := closing_of_abs hstage
    exact hnot stage uid hpc
  refine ⟨hsim.wf, ?_, ?_⟩
  · intro a
    rw [hsim.log]
    exact Lived.step h.lives hrefused hsim.step a
  · intro a
    rw [hsim.log]
    refine Settled.step h.lives h.settled hrefused ?_ hsim.step a
    -- what is refused is closed in the same step
    rintro b hadding hidle hevents
    have hmem : .removed b ∈ events := by
      rw [hevents]
      exact List.mem_singleton_self _
    obtain ⟨hact, hunlocked, hremoved⟩ := refused_of_removed hsim hstep hadding hidle hmem
    obtain ⟨hlisted, hnot⟩ := hlive hact b hadding hunlocked
    have hlog := hsim.log.symm.trans (refused_destroyed h.wf hlisted hnot hremoved)
    rw [hevents, List.append_cancel_left_eq] at hlog
    cases hlog

/-- How often the descriptor of a connection was closed. -/
def timesClosed (s : NetThread) (a : ConnectorPtr) : Nat := s.log.countP (NetEvent.closesOf a)

theorem timesClosed_mono (hwf : s.Wf) (h : step server s act = .ok t) (a : ConnectorPtr) :
    s.timesClosed a ≤ t.timesClosed a := by
  obtain ⟨events, hsim⟩ := step_simulates hwf h
  rw [timesClosed, timesClosed, hsim.log, List.countP_append]
  exact Nat.le_add_right ..

/-- The net thread is between two callbacks, and so is the thread that accepts for it. -/
def BetweenCallbacks (s : NetThread) : Prop := s.pc = .waiting ∧ s.acceptor = .idle

/-- Between callbacks the descriptor of a listed connection is open. -/
theorem DescriptorsOk.open_of_listed (h : s.DescriptorsOk) (hrest : s.BetweenCallbacks)
    (hlisted : s.isListed a = true) : s.timesClosed a = 0 := by
  have hnot : ¬ s.abs.IsClosing a := by
    rintro ⟨stage, hstage⟩
    obtain ⟨uid, hpc⟩ := closing_of_abs hstage
    rw [hrest.1] at hpc
    cases hpc
  obtain ⟨p, hp, hlive⟩ := (h.lives a).listed hnot hlisted
  have hbroken := (h.lives a).not_broken hp
  rw [timesClosed, Life.life_closings hbroken, hlive]
  rfl

/-- Between callbacks the descriptor of any other connection made has been closed once. -/
theorem DescriptorsOk.closed_of_unlisted (h : s.DescriptorsOk) (hrest : s.BetweenCallbacks)
    (hmade : a < s.nextConnector) (hlisted : s.isListed a = false) : s.timesClosed a = 1 := by
  have hnot : ¬ s.abs.IsClosing a := by
    rintro ⟨stage, hstage⟩
    obtain ⟨uid, hpc⟩ := closing_of_abs hstage
    rw [hrest.1] at hpc
    cases hpc
  have hpeer : s.abs.peer a = some (s.connectors a).peer := if_pos hmade
  have hbroken := (h.lives a).not_broken hpeer
  rcases h.settled a with hnum | hsettled
  · have hnum' : s.acceptor = .numbered a := hnum
    rw [hrest.2] at hnum'
    cases hnum'
  · obtain ⟨hborn, hkept⟩ := hsettled _ hpeer
    rw [timesClosed, Life.life_closings hbroken]
    -- off the list a life is unborn, released, refused or destroyed
    rcases (h.lives a).away hnot hlisted _ hpeer with hl | hl | hl | hl
    · exact absurd hl hborn
    · rw [hl]
      rfl
    · exact absurd hl hkept
    · rw [hl]
      rfl

end NetThread

/-! ## Accepting for all net threads -/

/-- A descriptor `accept` has returned, and the net thread and connector it was given to. -/
structure Obtained where
  fd : Int
  owner : Option (Nat × ConnectorPtr)
  deriving DecidableEq

/-- The net threads, and all that `accept_socket` has obtained. -/
structure Acceptance where
  threads : NetThreads
  obtained : List Obtained

/-- What happens next. -/
inductive AcceptanceAction where
  /-- `accept` returns a descriptor; `isIpAllow` allows the address or does not -/
  | accepted (connfd : Int) (allowed : Bool) (ip : Bytes) (port : UInt16)
      (listenFd timeout lastRefreshTime : Int) (data : ExtData)
  /-- any other step of net thread `i` or of a thread beside it -/
  | thread (i : Nat) (act : NetThread.Action)

namespace Acceptance

variable {n : Nat} {parseImp : Connector → Buffer × ExtData}

/-- How often a descriptor has been closed since it was obtained. -/
def timesClosed (w : Acceptance) (o : Obtained) : Nat :=
  match o.owner with
  | some (i, a) => (w.threads i).timesClosed a
  | none => 0

/-- The descriptor is open. -/
def isOpen (w : Acceptance) (fd : Int) : Bool :=
  w.obtained.any fun o => decide (o.fd = fd ∧ w.timesClosed o = 0)

/-- One step. The kernel's `accept` fails with -1 or returns a descriptor that is not open. -/
def acceptanceStep (n : Nat) (parseImp : Connector → Buffer × ExtData) (w : Acceptance) :
    AcceptanceAction → Except Fault Acceptance
  | .accepted connfd allowed ip port listenFd timeout lastRefreshTime data =>
    if connfd < 0 ∨ w.isOpen connfd then .ok w
    else if 0 < connfd ∧ allowed then
      if n = 0 then .error .divisionByZero
      else
        let i := netThreadOfFd n connfd
        match NetThread.step (threadServer n parseImp i) (w.threads i)
          (.accept connfd ip port listenFd timeout lastRefreshTime data) with
        | .error e => .error e
        | .ok t =>
          -- `add_connector` for the connection before is not over
          if t.nextConnector = (w.threads i).nextConnector then .ok w
          else
            .ok
              { threads := w.threads.set i t
                obtained := w.obtained ++ [⟨connfd, some (i, (w.threads i).nextConnector)⟩] }
    else .ok { w with obtained := w.obtained ++ [⟨connfd, none⟩] }
  | .thread i act =>
    if i < n ∧ act.accepts.isNone then
      match NetThread.step (threadServer n parseImp i) (w.threads i) act with
      | .error e => .error e
      | .ok t => .ok { w with threads := w.threads.set i t }
    else .ok w

/-- Every net thread is between two callbacks. -/
def BetweenCallbacks (n : Nat) (w : Acceptance) : Prop := ∀ i, i < n → (w.threads i).BetweenCallbacks

/-- The descriptor was closed exactly once and nobody has it, or it was not closed and exactly one
connector in the list of net thread `fd % n` has it. -/
def Accounted (n : Nat) (w : Acceptance) (o : Obtained) : Prop :=
  (w.timesClosed o = 1 ∧ ∀ i a, o.owner = some (i, a) → (w.threads i).isListed a = false) ∨
  (w.timesClosed o = 0 ∧ ∃ a, o.owner = some (netThreadOfFd n o.fd, a) ∧
    (w.threads (netThreadOfFd n o.fd)).isListed a = true ∧
    ∀ j b, j < n → (w.threads j).isListed b = true →
      (((w.threads j).connectors b).connectFd = o.fd ↔ j = netThreadOfFd n o.fd ∧ b = a))

/-- A descriptor that is accepted is positive and its address is allowed, and `event_ctl` refuses
no connection that has been closed since `list.add`. -/
def AddressesAllowed (w : Acceptance) : AcceptanceAction → Prop
  | .accepted connfd allowed .. => 0 ≤ connfd → 0 < connfd ∧ allowed = true
  | .thread i act => (w.threads i).RefusesLive act

/-- What such runs keep. -/
structure AcceptanceOk (n : Nat) (w : Acceptance) : Prop where
  threads : ∀ i, i < n → (w.threads i).DescriptorsOk
  /-- what was obtained belongs to a connector of its net thread -/
  owned : ∀ o ∈ w.obtained, ∃ a, o.owner = some (netThreadOfFd n o.fd, a) ∧
    netThreadOfFd n o.fd < n ∧ a < (w.threads (netThreadOfFd n o.fd)).nextConnector ∧
    ((w.threads (netThreadOfFd n o.fd)).connectors a).connectFd = o.fd
  /-- every connector made has a descriptor that was obtained -/
  obtained : ∀ i, i < n → ∀ a, a < (w.threads i).nextConnector →
    ⟨((w.threads i).connectors a).connectFd, some (i, a)⟩ ∈ w.obtained
  /-- two descriptors that are open are different -/
  distinct : w.obtained.Pairwise fun x y =>
    w.timesClosed x = 0 → w.timesClosed y = 0 → x.fd ≠ y.fd

/-- As the server starts. -/
def init (n : Nat) (parseImp : Connector → Buffer × ExtData) (maxSize : Nat) (now : Nat → Int)
    (connectors : Nat → Connectors) : Acceptance :=
  ⟨NetThreads.init n parseImp maxSize now connectors, []⟩

theorem acceptanceOk_init (n : Nat) (parseImp : Connector → Buffer × ExtData) (maxSize : Nat)
    (now : Nat → Int) (connectors : Nat → Connectors) :
    AcceptanceOk n (init n parseImp maxSize now connectors) where
  threads := fun i _ => NetThread.descriptorsOk_init (threadServer n parseImp i) maxSize (now i) _
  owned := fun _ h => nomatch h
  obtained := fun _ _ _ h => nomatch h
  distinct := .nil

variable {w w' : Acceptance} {i : Nat} {act : NetThread.Action} {t : NetThread}

/-- What a step of net thread `i` adds to the descriptors obtained: nothing, or one that was not
open, for the connector it makes. -/
def Gets (n : Nat) (w : Acceptance) (i : Nat) (t : NetThread) (new : List Obtained) : Prop :=
  (new = [] ∧ t.nextConnector = (w.threads i).nextConnector) ∨
  ∃ fd, new = [⟨fd, some (i, (w.threads i).nextConnector)⟩] ∧ netThreadOfFd n fd = i ∧
    w.isOpen fd = false ∧ t.nextConnector = (w.threads i).nextConnector + 1 ∧
    (t.connectors (w.threads i).nextConnector).connectFd = fd

/-- What net thread `i` does keeps the descriptors in order. -/
theorem AcceptanceOk.step_thread (h : AcceptanceOk n w) (hi : i < n)
    (hlive : (w.threads i).RefusesLive act)
    (hstep : NetThread.step (threadServer n parseImp i) (w.threads i) act = .ok t)
    {new : List Obtained} (hnew : w.Gets n i t new) (hthreads : w'.threads = w.threads.set i t)
    (hobtained : w'.obtained = w.obtained ++ new) : AcceptanceOk n w' := by
  have hwf := (h.threads i hi).wf
  have hself : w'.threads i = t := by rw [hthreads, NetThreads.set_self]
  have hother : ∀ j, j ≠ i → w'.threads j = w.threads j := by
    intro j hj
    rw [hthreads, NetThreads.set_ne hj]
  -- nothing made so far changes
  have hkept : ∀ j a, a < (w.threads j).nextConnector → a < (w'.threads j).nextConnector ∧
      ((w'.threads j).connectors a).connectFd = ((w.threads j).connectors a).connectFd := by
    intro j a ha
    by_cases hj : j = i
    · subst hj
      obtain ⟨hlt, -, hfd⟩ := NetThread.step_kept hwf hstep ha
      rw [hself]
      exact ⟨hlt, hfd⟩
    · rw [hother j hj]
      exact ⟨ha, rfl⟩
  have hmono : ∀ o : Obtained, w'.timesClosed o = 0 → w.timesClosed o = 0 := by
    rintro ⟨fd, owner⟩ hclosed
    cases owner with
    | none => rfl
    | some owner =>
      obtain ⟨j, a⟩ := owner
      change (w'.threads j).timesClosed a = 0 at hclosed
      change (w.threads j).timesClosed a = 0
      by_cases hj : j = i
      · subst hj
        rw [hself] at hclosed
        exact Nat.eq_zero_of_le_zero (hclosed ▸ NetThread.timesClosed_mono hwf hstep a)
      · rwa [hother j hj] at hclosed
  constructor
  case threads =>
    intro j hj
    by_cases hji : j = i
    · subst hji
      rw [hself]
      exact NetThread.step_descriptorsOk (h.threads j hj) hlive hstep
    · rw [hother j hji]
      exact h.threads j hj
  case owned =>
    intro o ho
    rw [hobtained] at ho
    rcases List.mem_append.mp ho with ho | ho
    · obtain ⟨a, howner, hlt, hmade, hfd⟩ := h.owned o ho
      obtain ⟨hmade', hfd'⟩ := hkept _ a hmade
      exact ⟨a, howner, hlt, hmade', hfd'.trans hfd⟩
    · rcases hnew with ⟨rfl, -⟩ | ⟨fd, rfl, hthread, -, hnext, hfd⟩
      · cases ho
      · cases List.mem_singleton.mp ho
        rw [hthread, hself]
        exact ⟨_, rfl, hi, hnext ▸ Nat.lt_succ_self _, hfd⟩
  case obtained =>
    intro j hj a ha
    rw [hobtained]
    by_cases hold : a < (w.threads j).nextConnector
    · rw [(hkept j a hold).2]
      exact List.mem_append_left _ (h.obtained j hj a hold)
    · have hji : j = i := by
        by_contra hne
        rw [hother j hne] at ha
        exact hold ha
      subst hji
      rw [hself] at ha ⊢
      rcases hnew with ⟨-, hnext⟩ | ⟨fd, rfl, -, -, hnext, hfd⟩
      · rw [hnext] at ha
        exact absurd ha hold
      · have hlast : a = (w.threads j).nextConnector := by
          rw [hnext] at ha
          exact Nat.le_antisymm (Nat.le_of_lt_succ ha) (Nat.le_of_not_lt hold)
        rw [hlast, hfd]
        exact List.mem_append_right _ (List.mem_singleton_self _)
  case distinct =>
    rw [hobtained, List.pairwise_append]
    refine ⟨?_, ?_, ?_⟩
    · refine h.distinct.imp ?_
      intro x y hxy hx hy
      exact hxy (hmono x hx) (hmono y hy)
    · rcases hnew with ⟨rfl, -⟩ | ⟨fd, rfl, -⟩
      · exact .nil
      · exact List.pairwise_singleton ..
    -- the descriptor that is obtained was not open
    · intro x hx y hy hclosed _ heq
      rcases hnew with ⟨rfl, -⟩ | ⟨fd, rfl, -, hopen, -⟩
      · cases hy
      · cases List.mem_singleton.mp hy
        have hisOpen : w.isOpen fd = true :=
          List.any_eq_true.mpr ⟨x, hx, decide_eq_true ⟨heq, hmono x hclosed⟩⟩
        rw [hopen] at hisOpen
        cases hisOpen

/-- **Step**: descriptors stay in order, if every accepted address is allowed. -/
theorem AcceptanceOk.step {act : AcceptanceAction} (h : AcceptanceOk n w)
    (hallowed : w.AddressesAllowed act) (hstep : acceptanceStep n parseImp w act = .ok w') :
    AcceptanceOk n w' := by
  cases act with
  | accepted connfd allowed ip port listenFd timeout lastRefreshTime data =>
    simp only [acceptanceStep] at hstep
    split at hstep
    · cases hstep
      exact h
    · rename_i hgot
      -- `accept` has returned a descriptor that nobody has open
      rw [not_or, Bool.not_eq_true] at hgot
      obtain ⟨hnonneg, hopen⟩ := hgot
      rw [if_pos (hallowed (Int.not_lt.mp hnonneg))] at hstep
      split at hstep
      · cases hstep
      · rename_i hn
        split at hstep
        · cases hstep
        · rename_i t hthread
          split at hstep
          · cases hstep
            exact h
          · rename_i hnext
            cases hstep
            have hi := netThreadOfFd_lt hn connfd
            -- an acceptance refuses no connection
            have hlive : (w.threads (netThreadOfFd n connfd)).RefusesLive
                (.accept connfd ip port listenFd timeout lastRefreshTime data) :=
              fun hact => nomatch hact
            rcases NetThread.step_made (h.threads _ hi).wf hthread with hsame | hmade
            · exact absurd hsame.next hnext
            · obtain ⟨connfd', ip', port', haccepts, -, -, hmade⟩ := hmade
              cases haccepts
              exact h.step_thread hi hlive hthread
                (.inr ⟨connfd, rfl, rfl, hopen, hmade.next, hmade.fd⟩) rfl rfl
  | thread i act =>
    simp only [acceptanceStep] at hstep
    split at hstep
    · rename_i hguard
      obtain ⟨hi, haccepts⟩ := hguard
      split at hstep
      · cases hstep
      · rename_i t hthread
        cases hstep
        have hsame := NetThread.step_sameMade (Option.isNone_iff_eq_none.mp haccepts) hthread
        exact h.step_thread hi hallowed hthread (.inl ⟨rfl, hsame.next⟩) rfl
          (List.append_nil _).symm
    · cases hstep
      exact h

/-- What is in order accounts for every descriptor between callbacks. -/
theorem AcceptanceOk.accounted (h : AcceptanceOk n w) (hrest : w.BetweenCallbacks n) {o : Obtained}
    (ho : o ∈ w.obtained) : w.Accounted n o := by
  obtain ⟨a, howner, hi, hmade, hfd⟩ := h.owned o ho
  have hclosed : w.timesClosed o = (w.threads (netThreadOfFd n o.fd)).timesClosed a := by
    rw [timesClosed, howner]
  cases hlisted : (w.threads (netThreadOfFd n o.fd)).isListed a with
  | false =>
    refine .inl ⟨hclosed.trans ((h.threads _ hi).closed_of_unlisted (hrest _ hi) hmade hlisted), ?_⟩
    intro j b hb
    cases howner.symm.trans hb
    exact hlisted
  | true =>
    have hopen := hclosed.trans ((h.threads _ hi).open_of_listed (hrest _ hi) hlisted)
    refine .inr ⟨hopen, a, howner, hlisted, ?_⟩
    intro j b hj hlistedb
    constructor
    · intro hfdb
      -- its descriptor was obtained too, and is open like the other
      have hb := h.obtained j hj b ((h.threads j hj).wf.made_of_seated (.inl hlistedb))
      have hopenb : w.timesClosed ⟨((w.threads j).connectors b).connectFd, some (j, b)⟩ = 0 :=
        (h.threads j hj).open_of_listed (hrest j hj) hlistedb
      by_contra hne
      have : Std.Symm fun x y : Obtained =>
          w.timesClosed x = 0 → w.timesClosed y = 0 → x.fd ≠ y.fd :=
        ⟨fun x y hxy hy hx => (hxy hx hy).symm⟩
      refine h.distinct.forall hb ho ?_ hopenb hopen hfdb
      intro heq
      have howner' : o.owner = some (j, b) := (congrArg Obtained.owner heq).symm
      have hpair := Option.some.inj (howner'.symm.trans howner)
      exact hne ⟨congrArg Prod.fst hpair, congrArg Prod.snd hpair⟩
    · rintro ⟨rfl, rfl⟩
      exact hfd

/-- **Descriptors**: between callbacks every descriptor obtained so far is closed, once, or one
listed connector has it, in every run in which the address of every connection is allowed. -/
theorem descriptors_accounted (n : Nat) (parseImp : Connector → Buffer × ExtData) (maxSize : Nat)
    (now : Nat → Int) (connectors : Nat → Connectors) (as : List AcceptanceAction) (w : Acceptance)
    (hallowed : Along (acceptanceStep n parseImp) AddressesAllowed
      (init n parseImp maxSize now connectors) as)
    (hrun : run (acceptanceStep n parseImp) (init n parseImp maxSize now connectors) as = .ok w)
    (hrest : w.BetweenCallbacks n) : ∀ o ∈ w.obtained, w.Accounted n o := by
  have hok : AcceptanceOk n w := run_invariant (fun w act w' h hP hstep => h.step hP hstep)
    (acceptanceOk_init n parseImp maxSize now connectors) hallowed hrun
  exact fun o ho => hok.accounted hrest ho

/-! ## One descriptor -/

/-- A server with one net thread, as it starts. -/
def soleInit : Acceptance :=
  init 1 NetThread.soleServer.parseImp ThreadQueue.defaultMaxSize (fun _ => 0)
    fun _ => NetThread.blankConnectors

/-- A run of one net thread. -/
theorem run_thread (hi : i < n) {acts : List NetThread.Action}
    (haccepts : ∀ act ∈ acts, act.accepts = none)
    (hrun : run (NetThread.step (threadServer n parseImp i)) (w.threads i) acts = .ok t) :
    run (acceptanceStep n parseImp) w (acts.map (.thread i)) =
      .ok { w with threads := w.threads.set i t } := by
  -- by induction on the actions, each of which changes the thread `i` only
  induction acts generalizing w with
  | nil =>
    cases hrun
    rw [NetThreads.set_same]
    rfl
  | cons act acts ih =>
    obtain ⟨u, hstep, hrest⟩ := run_cons_eq_ok hrun
    have hnone := haccepts act (List.mem_cons_self ..)
    have hthread : acceptanceStep n parseImp w (.thread i act) =
        .ok { w with threads := w.threads.set i u } := by
      simp only [acceptanceStep, hnone, Option.isNone_none, and_true, hi, if_true, hstep]
    have hself : run (NetThread.step (threadServer n parseImp i)) (w.threads.set i u i) acts =
        .ok t := by
      rw [NetThreads.set_self]
      exact hrest
    rw [List.map_cons, run_cons_ok hthread,
      ih (fun act hact => haccepts act (List.mem_cons_of_mem _ hact)) hself]
    exact congrArg (fun threads => Except.ok (⟨threads, w.obtained⟩ : Acceptance))
      (NetThreads.set_set ..)

/-- What follows its acceptance. -/
def addAndClose : List NetThread.Action :=
  .addConnector 0 :: .register true :: NetThread.closeOne ++ [.net (.took 0), .net (.took 0)]

set_option maxRecDepth 20000 in
/-- Its descriptor is closed once. -/
theorem descriptors_accounted_close :
    ∃ w, run (acceptanceStep 1 NetThread.soleServer.parseImp) soleInit
      (.accepted 7 true (ascii "1.2.3.4") 80 3 10 0 (.zero 8) :: addAndClose.map (.thread 0)) =
        .ok w ∧ w.obtained = [⟨7, some (0, 0)⟩] ∧ ∀ o ∈ w.obtained, w.Accounted 1 o := by
  obtain ⟨u, t, haccept, hrest, hpc, hidle⟩ :
      ∃ u t, acceptanceStep 1 NetThread.soleServer.parseImp soleInit
        (.accepted 7 true (ascii "1.2.3.4") 80 3 10 0 (.zero 8)) =
          .ok ⟨soleInit.threads.set 0 u, [⟨7, some (0, 0)⟩]⟩ ∧
      run (NetThread.step NetThread.soleServer) u addAndClose = .ok t ∧ t.pc = .waiting ∧
      t.acceptor = .idle := ⟨_, _, rfl, rfl, rfl, rfl⟩
  have haccepts : ∀ act ∈ addAndClose, act.accepts = none := by
    simp [addAndClose, NetThread.closeOne, NetThread.Action.accepts]
  have hallowed : ∀ act ∈ addAndClose, act ≠ .register false := by
    simp [addAndClose, NetThread.closeOne]
  have hthread := run_thread (w := ⟨soleInit.threads.set 0 u, [⟨7, some (0, 0)⟩]⟩) Nat.one_pos
    haccepts hrest
  have hrun := (run_cons_ok haccept).trans hthread
  refine ⟨_, hrun, rfl, descriptors_accounted 1 NetThread.soleServer.parseImp
    ThreadQueue.defaultMaxSize (fun _ => 0) (fun _ => NetThread.blankConnectors) _ _ ?_ hrun ?_⟩
  · refine .cons_ok (fun _ => ⟨by decide, rfl⟩) haccept ?_
    refine (along_of_forall (p := fun act => ∃ b ∈ addAndClose, act = .thread 0 b) ?_).mono ?_
    · intro act hact
      obtain ⟨b, hb, rfl⟩ := List.mem_map.mp hact
      exact ⟨b, hb, rfl⟩
    -- `event_ctl` refuses nothing here
    · rintro w _ ⟨b, hb, rfl⟩ hregister
      exact absurd hregister (hallowed b hb)
  · intro i hi
    obtain rfl : i = 0 := Nat.lt_one_iff.mp hi
    exact ⟨hpc, hidle⟩

set_option maxRecDepth 20000 in
/-- A descriptor whose address is not allowed is never closed. -/
theorem descriptor_leaks :
    ∃ w, run (acceptanceStep 1 NetThread.soleServer.parseImp) soleInit
      [.accepted 7 false (ascii "1.2.3.4") 80 3 10 0 (.zero 8)] = .ok w ∧
      w.BetweenCallbacks 1 ∧ ∃ o ∈ w.obtained, o.fd = 7 ∧ ¬ w.Accounted 1 o := by
  refine ⟨_, rfl, ?_, ⟨7, none⟩, List.mem_singleton_self _, rfl, ?_⟩
  · intro i hi
    obtain rfl : i = 0 := Nat.lt_one_iff.mp hi
    exact ⟨rfl, rfl⟩
  · rintro (⟨hclosed, -⟩ | ⟨-, a, howner, -⟩)
    · cases hclosed
    · cases howner

end Acceptance

end Sails.Net
