import Sails.Net.Connections
import Mathlib.Data.List.Induction

/-!
# Lives of connections

The events of one connection as an automaton: it is listed, it may be read, parsed and
written to, and it ends either by `ClosedConnectCB`, `event_stop`, `close` and `del` in this
order, or because the event loop refused it.

- `life`: the state of the automaton after a log
- `Lived`: how that state and the state of the net thread agree
- `Lived.step`: every step keeps the agreement, if no connection is refused that is not live
- `LifeOk.step`: no connection is, if none is closed while it is added
- `closed_in_order`: what a log says around a `ClosedConnectCB`
-/

namespace Sails.Net

/-- The connection an event is about. -/
def NetEvent.conn : NetEvent → Option ConnectorPtr
  | .added a .. | .output a _ | .read a | .parsed a | .closedCB a .. | .eventStop a _
  | .closeFd a _ | .removed a => some a
  | .accepted .. | .took .. => none

/-- The events a connection ends with. -/
def NetEvent.ends : NetEvent → Bool
  | .closedCB .. | .eventStop .. | .closeFd .. | .removed _ => true
  | _ => false

/-- How far the life of a connection has come. -/
inductive Life where
  | unborn
  | live
  | called
  | stopped
  | shut
  | gone
  | refused
  | destroyed
  /-- an event came out of order -/
  | broken
  deriving DecidableEq, Repr

namespace Life

/-- The life of a connection `a` with descriptor `fd` after one of its events. -/
def after (a : ConnectorPtr) (fd : Int) : Life → NetEvent → Life
  | .unborn, .added .. => .live
  | .live, .read _ | .live, .parsed _ | .live, .output .. => .live
  | .live, .closedCB _ _ _ holder => if holder = some a then .called else .broken
  | .called, .eventStop _ f => if f = fd then .stopped else .broken
  | .stopped, .closeFd _ f => if f = fd then .shut else .broken
  | .shut, .removed _ => .gone
  | .live, .removed _ => .refused
  | .refused, .closeFd _ f => if f = fd then .destroyed else .broken
  | _, _ => .broken

/-- The life of a connection after any event. -/
def next (a : ConnectorPtr) (fd : Int) (life : Life) (e : NetEvent) : Life :=
  if e.conn = some a then life.after a fd e else life

end Life

/-- The life of a connection after the events of a log. -/
def life (a : ConnectorPtr) (fd : Int) (log : List NetEvent) : Life :=
  log.foldl (Life.next a fd) .unborn

theorem life_append (a : ConnectorPtr) (fd : Int) (log events : List NetEvent) :
    life a fd (log ++ events) = events.foldl (Life.next a fd) (life a fd log) :=
  List.foldl_append

namespace Life

variable {a : ConnectorPtr} {fd : Int} {l : Life} {e : NetEvent} {events : List NetEvent}

theorem next_of_ne (h : e.conn ≠ some a) : l.next a fd e = l := if_neg h

theorem next_of_eq (h : e.conn = some a) : l.next a fd e = l.after a fd e := if_pos h

theorem next_broken (e : NetEvent) : Life.broken.next a fd e = .broken := by
  unfold next
  split
  · cases e <;> rfl
  · rfl

theorem foldl_broken (events : List NetEvent) : events.foldl (next a fd) .broken = .broken := by
  induction events with
  | nil => rfl
  | cons e events ih => rw [List.foldl_cons, next_broken, ih]

/-- A life with no events has not begun. -/
theorem life_of_no_event (h : ∀ e ∈ events, e.conn ≠ some a) : l = events.foldl (next a fd) l := by
  induction events with
  | nil => rfl
  | cons e events ih =>
    rw [List.foldl_cons, next_of_ne (h e (List.mem_cons_self ..))]
    exact ih fun e' he' => h e' (List.mem_cons_of_mem _ he')

/-! ## What the automaton says of a log -/

theorem of_after_live (h : l.after a fd e = .unborn ∨ l.after a fd e = .live) :
    (l = .unborn ∨ l = .live) ∧ e.ends = false := by
  unfold after at h
  split at h
  -- the events that leave a connection alive, then those that may end it
  · exact ⟨.inl rfl, rfl⟩
  · exact ⟨.inr rfl, rfl⟩
  · exact ⟨.inr rfl, rfl⟩
  · exact ⟨.inr rfl, rfl⟩
  all_goals first
    | (split at h <;> simp at h)
    | simp at h

/-- Only a life not begun or a live connection has seen no ending event. -/
theorem no_end_of_live {log : List NetEvent} (h : life a fd log = .unborn ∨ life a fd log = .live) :
    ∀ e ∈ log, e.conn = some a → e.ends = false := by
  induction log using List.reverseRecOn with
  | nil => intro e he; cases he
  | append_singleton log x ih =>
    rw [life_append, List.foldl_cons, List.foldl_nil] at h
    intro e he hconn
    have hbefore : (life a fd log = .unborn ∨ life a fd log = .live) ∧
        (x.conn = some a → x.ends = false) := by
      by_cases hx : x.conn = some a
      · rw [next_of_eq hx] at h
        obtain ⟨hlife, hends⟩ := of_after_live h
        exact ⟨hlife, fun _ => hends⟩
      · rw [next_of_ne hx] at h
        exact ⟨h, fun hx' => absurd hx' hx⟩
    rcases List.mem_append.mp he with he | he
    · exact ih hbefore.1 e he hconn
    · rw [List.mem_singleton] at he
      subst he
      exact hbefore.2 hconn

/-- The connection is not over. -/
def early : Life → Bool
  | .unborn | .live | .called | .stopped | .shut => true
  | .gone | .refused | .destroyed | .broken => false

theorem early_of_after (h : (l.after a fd e).early = true) : l.early = true ∧ e ≠ .removed a := by
  constructor
  · cases l with
    | refused =>
      cases e with
      | closeFd b f =>
        rw [after] at h
        split at h <;> cases h
      | _ => cases h
    | gone | destroyed | broken => cases e <;> cases h
    | _ => rfl
  · rintro rfl
    cases l <;> cases h

/-- A connection that is not over has not been removed. -/
theorem not_removed_of_early {log : List NetEvent} (h : (life a fd log).early = true) :
    .removed a ∉ log := by
  induction log using List.reverseRecOn with
  | nil => exact List.not_mem_nil
  | append_singleton log x ih =>
    rw [life_append, List.foldl_cons, List.foldl_nil] at h
    have hbefore : (life a fd log).early = true ∧ x ≠ .removed a := by
      by_cases hx : x.conn = some a
      · rw [next_of_eq hx] at h
        exact early_of_after h
      · rw [next_of_ne hx] at h
        exact ⟨h, fun heq => hx (heq ▸ rfl)⟩
    intro hmem
    rcases List.mem_append.mp hmem with hmem | hmem
    · exact ih hbefore.1 hmem
    · exact hbefore.2 (List.mem_singleton.mp hmem).symm

/-- The events still to come once `ClosedConnectCB` was called; nothing for another life. -/
def toCome (a : ConnectorPtr) (fd : Int) : Life → List NetEvent
  | .called => [.eventStop a fd, .closeFd a fd, .removed a]
  | .stopped => [.closeFd a fd, .removed a]
  | .shut => [.removed a]
  | _ => []

/-- `ClosedConnectCB` was called, and nothing came out of order since. -/
def Closing (l : Life) : Prop := l = .called ∨ l = .stopped ∨ l = .shut ∨ l = .gone

/-- One event after `ClosedConnectCB` is the next of those to come. -/
theorem toCome_next (h : l.Closing) (hnext : l.next a fd e ≠ .broken) :
    (l.next a fd e).Closing ∧
      l.toCome a fd = ([e].filter fun e => e.conn = some a) ++ (l.next a fd e).toCome a fd := by
  by_cases hconn : e.conn = some a
  · rw [next_of_eq hconn] at hnext ⊢
    have hfilter : ([e].filter fun e => e.conn = some a) = [e] := by simp [hconn]
    rw [hfilter]
    rcases h with rfl | rfl | rfl | rfl <;> cases e <;>
      simp_all [after, toCome, Closing, NetEvent.conn]
  · rw [next_of_ne hconn]
    exact ⟨h, by simp [hconn]⟩

/-- Everything after `ClosedConnectCB` is the front of the events to come. -/
theorem toCome_foldl (h : l.Closing) (hbroken : events.foldl (next a fd) l ≠ .broken) :
    (events.foldl (next a fd) l).Closing ∧
      l.toCome a fd =
        (events.filter fun e => e.conn = some a) ++ (events.foldl (next a fd) l).toCome a fd := by
  induction events generalizing l with
  | nil => exact ⟨h, rfl⟩
  | cons e events ih =>
    rw [List.foldl_cons] at hbroken
    have hstep : l.next a fd e ≠ .broken := by
      intro heq
      rw [heq, foldl_broken] at hbroken
      exact hbroken rfl
    obtain ⟨hclosing, hfront⟩ := toCome_next h hstep
    obtain ⟨hclosing', hrest⟩ := ih hclosing hbroken
    refine ⟨hclosing', ?_⟩
    rw [List.foldl_cons, hfront, hrest, ← List.append_assoc, ← List.filter_append]
    rfl

end Life

open Life

/-- **Around a `ClosedConnectCB`** in a log that is in order: the slot held the connection,
nothing had ended it before, and what comes after is the front of `event_stop`, `close` and
`del`. -/
theorem closed_in_order {a : ConnectorPtr} {fd : Int} {k reason : Nat}
    {holder : Option ConnectorPtr} {before after : List NetEvent}
    (h : life a fd (before ++ .closedCB a k reason holder :: after) ≠ .broken) :
    holder = some a ∧ (∀ e ∈ before, e.conn = some a → e.ends = false) ∧
      (life a fd (before ++ .closedCB a k reason holder :: after)).Closing ∧
      (after.filter fun e => e.conn = some a) ++
        (life a fd (before ++ .closedCB a k reason holder :: after)).toCome a fd =
          [.eventStop a fd, .closeFd a fd, .removed a] := by
  rw [life_append, List.foldl_cons] at h ⊢
  -- the callback is in order on a live connection only
  have hcalled : life a fd before = .live ∧ holder = some a := by
    by_cases hlive : life a fd before = .live
    · refine ⟨hlive, ?_⟩
      rw [hlive, next_of_eq rfl] at h
      by_contra hne
      rw [Life.after, if_neg hne, foldl_broken] at h
      exact h rfl
    · exfalso
      apply h
      rw [next_of_eq rfl]
      have hbroken : (life a fd before).after a fd (.closedCB a k reason holder) = .broken := by
        cases hl : life a fd before <;> simp_all [Life.after]
      rw [hbroken, foldl_broken]
  obtain ⟨hlive, rfl⟩ := hcalled
  have hnext : (life a fd before).next a fd (.closedCB a k reason (some a)) = .called := by
    rw [hlive, next_of_eq rfl, Life.after, if_pos rfl]
  rw [hnext] at h ⊢
  obtain ⟨hclosing, htoCome⟩ := toCome_foldl (.inl rfl) h
  exact ⟨rfl, no_end_of_live (.inr hlive), hclosing, htoCome.symm⟩

/-! ## Lives and states -/

namespace Connections

variable {c c' : Connections} {events log : List NetEvent} {a : ConnectorPtr}

/-- The life of a connection that is being closed, and whether it is still listed. -/
def lifeAt : CloseStage → Life × Bool
  | .eventStop => (.called, true)
  | .close => (.stopped, true)
  | .del => (.shut, true)
  | .release => (.gone, false)

/-- The net thread is closing the connection. -/
def IsClosing (c : Connections) (a : ConnectorPtr) : Prop := ∃ stage, c.closing = some (stage, a)

/-- The life of a connection agrees with the state. -/
structure Lived (c : Connections) (a : ConnectorPtr) (log : List NetEvent) : Prop where
  fresh : c.peer a = none ∨ c.adding = .numbered a →
    (∀ e ∈ log, e.conn ≠ some a) ∧ c.listed a = false
  closing : ∀ stage, c.closing = some (stage, a) →
    ∃ p, c.peer a = some p ∧ (life a p.fd log, c.listed a) = lifeAt stage
  listed : ¬ c.IsClosing a → c.listed a = true → ∃ p, c.peer a = some p ∧ life a p.fd log = .live
  away : ¬ c.IsClosing a → c.listed a = false → ∀ p, c.peer a = some p →
    life a p.fd log = .unborn ∨ life a p.fd log = .gone ∨ life a p.fd log = .refused ∨
      life a p.fd log = .destroyed

/-- And a connection that is being added has not been closed meanwhile. -/
structure LifeOk (c : Connections) (a : ConnectorPtr) (log : List NetEvent) : Prop
    extends Lived c a log where
  adding : c.adding = .added a → c.listed a = true ∧ ¬ c.IsClosing a

/-- No event came out of order. -/
theorem Lived.not_broken (h : Lived c a log) {p : Peer} (hp : c.peer a = some p) :
    life a p.fd log ≠ .broken := by
  by_cases hclosing : c.IsClosing a
  · obtain ⟨stage, hstage⟩ := hclosing
    obtain ⟨q, hq, hlife⟩ := h.closing stage hstage
    cases hp.symm.trans hq
    have hfst := congrArg Prod.fst hlife
    rw [show life a p.fd log = (lifeAt stage).1 from hfst]
    cases stage <;> decide
  · cases hlisted : c.listed a with
    | true =>
      obtain ⟨q, hq, hlife⟩ := h.listed hclosing hlisted
      cases hp.symm.trans hq
      rw [hlife]
      decide
    | false =>
      rcases h.away hclosing hlisted p hp with hlife | hlife | hlife | hlife <;> rw [hlife] <;> decide

/-- A step that is about other connections. -/
theorem Lived.frame (h : Lived c a log) (hevents : ∀ e ∈ events, e.conn ≠ some a)
    (hpeer : (c'.peer a).map Peer.fd = (c.peer a).map Peer.fd) (hlisted : c'.listed a = c.listed a)
    (hclosing : ∀ stage, c'.closing = some (stage, a) ↔ c.closing = some (stage, a))
    (hnumbered : c'.adding = .numbered a → c.adding = .numbered a) :
    Lived c' a (log ++ events) := by
  -- events of other connections do not change the life of this one
  have hlife : ∀ fd, life a fd (log ++ events) = life a fd log := by
    intro fd
    rw [life_append, ← life_of_no_event hevents]
  -- and its peer is there before as it is there after
  have hback : ∀ p, c'.peer a = some p → ∃ q, c.peer a = some q ∧ q.fd = p.fd := by
    intro p hp
    rw [hp, Option.map_some] at hpeer
    exact Option.map_eq_some_iff.mp hpeer.symm
  have hforth : ∀ q, c.peer a = some q → ∃ p, c'.peer a = some p ∧ p.fd = q.fd := by
    intro q hq
    rw [hq, Option.map_some] at hpeer
    exact Option.map_eq_some_iff.mp hpeer
  have hisClosing : c'.IsClosing a ↔ c.IsClosing a := exists_congr hclosing
  constructor
  case fresh =>
    intro hfresh
    have hold : c.peer a = none ∨ c.adding = .numbered a := by
      refine hfresh.imp ?_ hnumbered
      intro hnone
      rwa [hnone, Option.map_none, eq_comm, Option.map_eq_none_iff] at hpeer
    obtain ⟨hno, hnot⟩ := h.fresh hold
    refine ⟨?_, hlisted.trans hnot⟩
    intro e he
    rcases List.mem_append.mp he with he | he
    · exact hno e he
    · exact hevents e he
  case closing =>
    intro stage hstage
    obtain ⟨q, hq, hl⟩ := h.closing stage ((hclosing stage).mp hstage)
    obtain ⟨p, hp, hfd⟩ := hforth q hq
    exact ⟨p, hp, by rw [hlife, hfd, hlisted, hl]⟩
  case listed =>
    intro hnot hl
    obtain ⟨q, hq, hlive⟩ := h.listed (fun hc => hnot (hisClosing.mpr hc)) (hlisted.symm.trans hl)
    obtain ⟨p, hp, hfd⟩ := hforth q hq
    exact ⟨p, hp, by rw [hlife, hfd, hlive]⟩
  case away =>
    intro hnot hl p hp
    obtain ⟨q, hq, hfd⟩ := hback p hp
    rw [hlife, ← hfd]
    exact h.away (fun hc => hnot (hisClosing.mpr hc)) (hlisted.symm.trans hl) q hq

/-- A step on a live connection that leaves it alive. -/
theorem Lived.live (h : Lived c a log) (hlisted : c.listed a = true) (hclosing : c.closing = none)
    (hevents : ∀ fd, events.foldl (Life.next a fd) .live = .live)
    (hpeer : (c'.peer a).map Peer.fd = (c.peer a).map Peer.fd) (hlisted' : c'.listed a = true)
    (hclosing' : c'.closing = none) (hadding : c'.adding = c.adding) :
    Lived c' a (log ++ events) := by
  have hnot : ¬ c.IsClosing a := by
    rintro ⟨stage, hstage⟩
    rw [hclosing] at hstage
    cases hstage
  -- a listed connection that is not being closed is alive, and stays so
  obtain ⟨q, hq, hlive⟩ := h.listed hnot hlisted
  rw [hq, Option.map_some] at hpeer
  obtain ⟨p, hp, hfd⟩ := Option.map_eq_some_iff.mp hpeer
  constructor
  case fresh =>
    rintro (hnone | hnumbered)
    · rw [hp] at hnone
      cases hnone
    · have hunlisted := (h.fresh (.inr (hadding.symm.trans hnumbered))).2
      rw [hlisted] at hunlisted
      cases hunlisted
  case closing =>
    intro stage hstage
    rw [hclosing'] at hstage
    cases hstage
  case listed =>
    intro _ _
    exact ⟨p, hp, by rw [life_append, hfd, hlive, hevents]⟩
  case away =>
    intro _ hl
    rw [hlisted'] at hl
    cases hl

/-- A stage of the closing of a connection. -/
theorem Lived.stage (h : Lived c a log) {stage stage' : CloseStage} {p q : Peer}
    (hclosing : c.closing = some (stage, a)) (hp : c.peer a = some p)
    (hclosing' : c'.closing = some (stage', a)) (hq : c'.peer a = some q) (hfd : q.fd = p.fd)
    (hadding : c'.adding = c.adding)
    (hlife : events.foldl (Life.next a p.fd) (lifeAt stage).1 = (lifeAt stage').1)
    (hlisted : c'.listed a = (lifeAt stage').2) : Lived c' a (log ++ events) := by
  obtain ⟨p', hp', hold⟩ := h.closing stage hclosing
  cases hp.symm.trans hp'
  have hisClosing : c'.IsClosing a := ⟨stage', hclosing'⟩
  constructor
  case fresh =>
    rintro (hnone | hnumbered)
    · rw [hq] at hnone
      cases hnone
    -- a connection that was only numbered has no life yet
    · have hno := (h.fresh (.inr (hadding.symm.trans hnumbered))).1
      have hunborn : life a p.fd log = .unborn := (life_of_no_event hno).symm
      have hfst := congrArg Prod.fst hold
      rw [hunborn] at hfst
      cases stage <;> cases hfst
  -- the events of the stage take the life from one stage to the next
  case closing =>
    intro stage'' hstage''
    cases hclosing'.symm.trans hstage''
    refine ⟨q, hq, ?_⟩
    have hfst : life a p.fd log = (lifeAt stage).1 := congrArg Prod.fst hold
    rw [life_append, hfd, hfst, hlife, hlisted]
  case listed =>
    intro hnot
    exact absurd hisClosing hnot
  case away =>
    intro hnot
    exact absurd hisClosing hnot

/-- A live connection leaves the list without having been closed. -/
theorem Lived.refuse (h : Lived c a log) {p : Peer} (hlisted : c.listed a = true)
    (hnot : ¬ c.IsClosing a) (hp : c.peer a = some p) (destroyed : Bool) :
    Lived ({ c with adding := .idle }.setListed a false) a
      (log ++ .removed a :: if destroyed then [.closeFd a p.fd] else []) := by
  obtain ⟨q, hq, hlive⟩ := h.listed hnot hlisted
  cases hp.symm.trans hq
  -- the life ends with the refusal, or with the destructor behind it
  have hend : life a p.fd (log ++ .removed a :: if destroyed then [.closeFd a p.fd] else []) =
      if destroyed then .destroyed else .refused := by
    rw [life_append, hlive, List.foldl_cons, next_of_eq rfl]
    split
    · rw [List.foldl_cons, List.foldl_nil, next_of_eq rfl]
      exact if_pos rfl
    · rfl
  constructor
  case fresh =>
    rintro (hnone | hnumbered)
    · rw [setListed_peer, hp] at hnone
      cases hnone
    · cases hnumbered
  case closing =>
    intro stage hstage
    exact absurd ⟨stage, hstage⟩ hnot
  case listed =>
    intro _ hl
    simp at hl
  case away =>
    intro _ _ r hr
    rw [setListed_peer, hp] at hr
    cases hr
    rw [hend]
    cases destroyed
    · exact .inr (.inr (.inl rfl))
    · exact .inr (.inr (.inr rfl))

/-- A new connection. -/
theorem Lived.begin (h : Lived c a log) {p : Peer} (hpeer : c.peer a = none)
    (hclosing : ¬ c.IsClosing a) :
    Lived ({ c with adding := .numbered a }.setPeer a p) a log := by
  obtain ⟨hno, hnot⟩ := h.fresh (.inl hpeer)
  constructor
  case fresh =>
    intro _
    exact ⟨hno, hnot⟩
  case closing =>
    intro stage hstage
    exact absurd ⟨stage, hstage⟩ hclosing
  case listed =>
    intro _ hl
    rw [setPeer_listed, hnot] at hl
    cases hl
  case away =>
    intro _ _ q hq
    exact .inl (life_of_no_event hno).symm

/-- A new connection is listed. -/
theorem Lived.enlist (h : Lived c a log) {p : Peer} (hadding : c.adding = .numbered a)
    (hp : c.peer a = some p) :
    Lived ({ c with adding := .added a }.setListed a true) a
      (log ++ [.added a p.ident.uid p.ident.ip p.ident.port]) := by
  obtain ⟨hno, hnot⟩ := h.fresh (.inr hadding)
  have hunborn : life a p.fd log = .unborn := (life_of_no_event hno).symm
  -- a connection that is being closed has begun to live
  have hclosing : ¬ c.IsClosing a := by
    rintro ⟨stage, hstage⟩
    obtain ⟨q, hq, hlife⟩ := h.closing stage hstage
    cases hp.symm.trans hq
    rw [hunborn] at hlife
    cases stage <;> cases hlife
  constructor
  case fresh =>
    rintro (hnone | hnumbered)
    · rw [setListed_peer, hp] at hnone
      cases hnone
    · cases hnumbered
  case closing =>
    intro stage hstage
    exact absurd ⟨stage, hstage⟩ hclosing
  case listed =>
    intro _ _
    refine ⟨p, hp, ?_⟩
    rw [life_append, hunborn, List.foldl_cons, List.foldl_nil, next_of_eq rfl]
    rfl
  case away =>
    intro _ hl
    simp at hl

/-- What is read from a live connection, and parsed, leaves it alive. -/
theorem foldl_input {b : ConnectorPtr} (hevents : ∀ e ∈ events, e = .read b ∨ e = .parsed b)
    (fd : Int) : events.foldl (Life.next b fd) .live = .live := by
  induction events with
  | nil => rfl
  | cons e events ih =>
    have hrest := ih fun e' he' => hevents e' (List.mem_cons_of_mem _ he')
    rcases hevents e (List.mem_cons_self ..) with rfl | rfl
    · rw [List.foldl_cons, next_of_eq rfl]
      exact hrest
    · rw [List.foldl_cons, next_of_eq rfl]
      exact hrest

/-- The closing of a live connection begins. -/
theorem Lived.call (h : Lived c a log) (hlisted : c.listed a = true) (hnot : ¬ c.IsClosing a)
    (hevents : ∀ fd, events.foldl (Life.next a fd) .live = .called) (hpeer : c'.peer a = c.peer a)
    (hlisted' : c'.listed a = true) (hclosing : c'.closing = some (.eventStop, a))
    (hadding : c'.adding = c.adding) : Lived c' a (log ++ events) := by
  obtain ⟨p, hp, hlive⟩ := h.listed hnot hlisted
  have hisClosing : c'.IsClosing a := ⟨.eventStop, hclosing⟩
  constructor
  case fresh =>
    intro hfresh
    rw [hpeer, hadding] at hfresh
    have hunlisted := (h.fresh hfresh).2
    rw [hlisted] at hunlisted
    cases hunlisted
  -- the callback is the first stage of the close
  case closing =>
    intro stage hstage
    cases hclosing.symm.trans hstage
    refine ⟨p, hpeer.trans hp, ?_⟩
    rw [life_append, hlive, hevents, hlisted']
    rfl
  case listed =>
    intro hno
    exact absurd hisClosing hno
  case away =>
    intro hno
    exact absurd hisClosing hno

/-- The closing of a connection is over. -/
theorem Lived.release (h : Lived c a log) (hclosing : c.closing = some (.release, a)) :
    Lived { c with closing := none } a log := by
  obtain ⟨p, hp, hlife⟩ := h.closing _ hclosing
  have hgone : life a p.fd log = .gone := congrArg Prod.fst hlife
  have hunlisted : c.listed a = false := congrArg Prod.snd hlife
  constructor
  case fresh =>
    exact h.fresh
  case closing =>
    intro stage hstage
    cases hstage
  case listed =>
    intro _ hl
    rw [show c.listed a = true from hl] at hunlisted
    cases hunlisted
  case away =>
    intro _ _ q hq
    cases hp.symm.trans hq
    exact .inr (.inl hgone)

/-- No connection is refused that has been closed since it was added. -/
def RefusesLive (c c' : Connections) (events : List NetEvent) : Prop :=
  ∀ b, c.adding = .added b → c'.adding = .idle → .removed b ∈ events →
    c.listed b = true ∧ ¬ c.IsClosing b

/-- **Step**: every connection's events stay in order. -/
theorem Lived.step (h : ∀ b, Lived c b log) (hrefused : RefusesLive c c' events)
    (hstep : Step c events c') (a : ConnectorPtr) : Lived c' a (log ++ events) := by
  have ha := h a
  cases hstep with
  | idle => simpa using ha
  | @input b _ hlisted hclosing hevents =>
    by_cases hba : b = a
    · subst hba
      exact ha.live hlisted hclosing (foldl_input hevents) rfl hlisted hclosing rfl
    · refine ha.frame ?_ rfl rfl (fun _ => Iff.rfl) id
      intro e he
      rcases hevents e he with rfl | rfl <;> simpa [NetEvent.conn] using hba
  | accepted => exact ha.frame (by simp [NetEvent.conn]) rfl rfl (fun _ => Iff.rfl) id
  | pass hpending hclosing hnot =>
    exact ha.frame (by simp [NetEvent.conn]) rfl rfl (fun _ => Iff.rfl) id
  | @output k d rest b p taken outgoing hpending hclosing hcmd hfor hbytes =>
    by_cases hba : b = a
    · subst hba
      refine ha.live hfor.1 hclosing ?_ ?_ hfor.1 hclosing rfl
      · intro fd
        simp [Life.next, NetEvent.conn, Life.after]
      · simp [hfor.2.1]
    · refine ha.frame ?_ ?_ rfl (fun _ => Iff.rfl) id
      · simpa [NetEvent.conn] using hba
      · rw [setPeer_peer, if_neg (Ne.symm hba)]
  | @called k d rest b p reason hpending hclosing hcmd hfor =>
    by_cases hba : b = a
    · subst hba
      have hnot : ¬ c.IsClosing b := by
        rintro ⟨stage, hstage⟩
        rw [hclosing] at hstage
        cases hstage
      refine ha.call hfor.1 hnot (fun fd => ?_) rfl hfor.1 rfl rfl
      simp [Life.next, NetEvent.conn, Life.after]
    · refine ha.frame ?_ rfl rfl ?_ id
      · simpa [NetEvent.conn] using hba
      · intro stage
        rw [hclosing]
        simpa using fun _ => hba
  | @stopped b p hclosing hpeer =>
    by_cases hba : b = a
    · subst hba
      obtain ⟨q, hq, hlife⟩ := ha.closing _ hclosing
      refine ha.stage hclosing hpeer rfl hpeer rfl rfl ?_ (congrArg Prod.snd hlife)
      simp [Life.next, NetEvent.conn, Life.after, lifeAt]
    · refine ha.frame ?_ rfl rfl ?_ id
      · simpa [NetEvent.conn] using hba
      · intro stage
        rw [hclosing]
        simp [hba]
  | @shut b p hclosing hpeer =>
    by_cases hba : b = a
    · subst hba
      obtain ⟨q, hq, hlife⟩ := ha.closing _ hclosing
      refine ha.stage hclosing hpeer rfl (if_pos rfl) rfl rfl ?_ (congrArg Prod.snd hlife)
      simp [Life.next, NetEvent.conn, Life.after, lifeAt]
    · refine ha.frame ?_ ?_ rfl ?_ id
      · simpa [NetEvent.conn] using hba
      · rw [setPeer_peer, if_neg (Ne.symm hba)]
      · intro stage
        simp [setPeer, hclosing, hba]
  | @removed b b' hclosing hlisted hown =>
    -- the connection being closed is still listed, so it is the one that leaves
    obtain ⟨p, hp, hlife⟩ := (h b).closing _ hclosing
    have hbl : c.listed b = true := congrArg Prod.snd hlife
    obtain rfl := hown hbl
    by_cases hba : b' = a
    · subst hba
      refine ha.stage hclosing hp rfl hp rfl rfl ?_ (if_pos rfl)
      simp [Life.next, NetEvent.conn, Life.after, lifeAt]
    · refine ha.frame ?_ rfl (if_neg (Ne.symm hba)) ?_ id
      · simpa [NetEvent.conn] using hba
      · intro stage
        simp [setListed, hclosing, hba]
  | @released b hclosing =>
    by_cases hba : b = a
    · subst hba
      rw [List.append_nil]
      exact ha.release hclosing
    · refine ha.frame (by simp) rfl rfl ?_ id
      intro stage
      simp [hclosing, hba]
  | @numbered b p hadding hpeer hnot hout =>
    by_cases hba : b = a
    · subst hba
      rw [List.append_nil]
      refine ha.begin hpeer ?_
      rintro ⟨stage, hstage⟩
      obtain ⟨q, hq, -⟩ := ha.closing stage hstage
      cases hpeer.symm.trans hq
    · refine ha.frame (by simp) ?_ rfl (fun _ => Iff.rfl) ?_
      · rw [setPeer_peer, if_neg (Ne.symm hba)]
      · intro hnum
        cases hnum
        exact absurd rfl hba
  | @added b p hadding hpeer hother =>
    by_cases hba : b = a
    · subst hba
      exact ha.enlist hadding hpeer
    · refine ha.frame ?_ rfl (if_neg (Ne.symm hba)) (fun _ => Iff.rfl) ?_
      · simpa [NetEvent.conn] using hba
      · intro hnum
        cases hnum
  | @registered b hadding =>
    refine ha.frame (by simp) rfl rfl (fun _ => Iff.rfl) ?_
    · intro hnum
      cases hnum
  | @refused b b' p destroyed hadding hlisted hown hpeer =>
    obtain ⟨hlive, hnot⟩ := hrefused b hadding rfl (List.mem_cons_self ..)
    obtain rfl := hown hlive
    by_cases hba : b' = a
    · subst hba
      exact ha.refuse hlive hnot hpeer destroyed
    · refine ha.frame ?_ rfl (if_neg (Ne.symm hba)) (fun _ => Iff.rfl) ?_
      · intro e he
        rcases List.mem_cons.mp he with rfl | he
        · simpa [NetEvent.conn] using hba
        · split at he
          · rw [List.mem_singleton] at he
            subst he
            simpa [NetEvent.conn] using hba
          · cases he
      · intro hnum
        cases hnum

/-- No connection is closed while it is still being added. -/
def ClosesAdded (c : Connections) (events : List NetEvent) : Prop :=
  ∀ b k reason holder, .closedCB b k reason holder ∈ events → c.adding ≠ .added b

/-- **Step**: so a connection that is refused is live. -/
theorem LifeOk.step (h : ∀ b, LifeOk c b log) (hadded : ClosesAdded c events)
    (hstep : Step c events c') (a : ConnectorPtr) : LifeOk c' a (log ++ events) := by
  refine ⟨Lived.step (fun b => (h b).toLived) (fun b hadding _ _ => (h b).adding hadding) hstep a, ?_⟩
  have ha := h a
  cases hstep with
  | @called k d rest b p reason hpending hclosing hcmd hfor =>
    intro hadding
    refine ⟨(ha.adding hadding).1, ?_⟩
    rintro ⟨stage, hstage⟩
    cases hstage
    exact hadded a k reason (some a) (by simp) hadding
  | @stopped b p hclosing hpeer =>
    intro hadding
    obtain ⟨hlisted, hnot⟩ := ha.adding hadding
    refine ⟨hlisted, ?_⟩
    rintro ⟨stage, hstage⟩
    cases hstage
    exact hnot ⟨_, hclosing⟩
  | @shut b p hclosing hpeer =>
    intro hadding
    obtain ⟨hlisted, hnot⟩ := ha.adding hadding
    refine ⟨hlisted, ?_⟩
    rintro ⟨stage, hstage⟩
    cases hstage
    exact hnot ⟨_, hclosing⟩
  | @removed b b' hclosing hlisted hown =>
    intro hadding
    obtain ⟨hlisted', hnot⟩ := ha.adding hadding
    -- the connection being closed is still listed, so it is the one that leaves
    obtain ⟨p, hp, hlife⟩ := (h b).closing _ hclosing
    have hbl : c.listed b = true := congrArg Prod.snd hlife
    obtain rfl := hown hbl
    have hba : a ≠ b' := by
      rintro rfl
      exact hnot ⟨_, hclosing⟩
    refine ⟨(if_neg hba).trans hlisted', ?_⟩
    rintro ⟨stage, hstage⟩
    cases hstage
    exact hba rfl
  | released hclosing =>
    intro hadding
    refine ⟨(ha.adding hadding).1, ?_⟩
    rintro ⟨stage, hstage⟩
    cases hstage
  | @added b p hadding hpeer hother =>
    intro hadded'
    cases hadded'
    refine ⟨if_pos rfl, ?_⟩
    rintro ⟨stage, hstage⟩
    obtain ⟨q, hq, hlife⟩ := ha.closing stage hstage
    have hunborn : life a q.fd log = .unborn :=
      (life_of_no_event (ha.fresh (.inr hadding)).1).symm
    rw [hunborn] at hlife
    cases stage <;> cases hlife
  | numbered | registered | refused =>
    intro hadding
    cases hadding
  | _ => exact ha.adding

theorem Lived.empty (a : ConnectorPtr) : Lived .empty a [] where
  fresh := fun _ => ⟨fun _ h => (nomatch h), rfl⟩
  closing := fun _ h => nomatch h
  listed := fun _ h => nomatch h
  away := fun _ _ _ h => nomatch h

theorem LifeOk.empty (a : ConnectorPtr) : LifeOk .empty a [] where
  toLived := .empty a
  adding := fun h => nomatch h

/-- A listed connection has not been removed. -/
theorem Lived.not_removed (h : Lived c a log) (hlisted : c.listed a = true) :
    .removed a ∉ log := by
  by_cases hclosing : c.IsClosing a
  · obtain ⟨stage, hstage⟩ := hclosing
    obtain ⟨p, -, hlife⟩ := h.closing stage hstage
    have hfst : life a p.fd log = (lifeAt stage).1 := congrArg Prod.fst hlife
    have hsnd : true = (lifeAt stage).2 := hlisted.symm.trans (congrArg Prod.snd hlife)
    have hearly : (life a p.fd log).early = true := by
      rw [hfst]
      cases stage with
      | release => cases hsnd
      | _ => rfl
    exact not_removed_of_early hearly
  · obtain ⟨p, -, hlive⟩ := h.listed hclosing hlisted
    have hearly : (life a p.fd log).early = true := by
      rw [hlive]
      rfl
    exact not_removed_of_early hearly

end Connections

end Sails.Net
