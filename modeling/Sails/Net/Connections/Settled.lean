import Sails.Net.Connections.Life

/-!
# How often a connection's descriptor is closed

- `Life.closings`, `life_closings`: a life in order says how often
- `Settled`: the connection is about to be added, or its life is neither before its beginning nor
  at a refusal that left the descriptor open
- `Settled.step`: steps that destroy what they refuse keep that
-/

namespace Sails.Net

open Connections

/-- The event closes the descriptor of a connection. -/
def NetEvent.closesOf (a : ConnectorPtr) : NetEvent → Bool
  | .closeFd b _ => decide (b = a)
  | _ => false

theorem NetEvent.closesOf_of_ne {e : NetEvent} {a : ConnectorPtr} (h : e.conn ≠ some a) :
    e.closesOf a = false := by
  cases e with
  | closeFd b fd =>
    apply decide_eq_false
    rintro rfl
    exact h rfl
  | _ => rfl

namespace Life

variable {a : ConnectorPtr} {fd : Int} {l : Life} {e : NetEvent} {events : List NetEvent}

/-- How often the descriptor has been closed in a life. -/
def closings : Life → Nat
  | .shut | .gone | .destroyed => 1
  | _ => 0

theorem closings_after (hconn : e.conn = some a) (h : l.after a fd e ≠ .broken) :
    (l.after a fd e).closings = l.closings + if e.closesOf a then 1 else 0 := by
  unfold after at h ⊢
  split at h
  -- reading, writing and the stages of a closing, each with its own event
  · rfl
  · rfl
  · rfl
  · rfl
  · rename_i holder
    by_cases hholder : holder = some a
    · rw [if_pos hholder]
      rfl
    · exact absurd (if_neg hholder) h
  · rename_i f
    by_cases hf : f = fd
    · rw [if_pos hf]
      rfl
    · exact absurd (if_neg hf) h
  · rename_i b f
    by_cases hf : f = fd
    · cases hconn
      rw [if_pos hf]
      simp [closings, NetEvent.closesOf]
    · exact absurd (if_neg hf) h
  · rfl
  · rfl
  · rename_i b f
    by_cases hf : f = fd
    · cases hconn
      rw [if_pos hf]
      simp [closings, NetEvent.closesOf]
    · exact absurd (if_neg hf) h
  · exact absurd rfl h

/-- **Closings**: a life in order says how often the descriptor has been closed. -/
theorem life_closings {log : List NetEvent} (h : life a fd log ≠ .broken) :
    log.countP (NetEvent.closesOf a) = (life a fd log).closings := by
  induction log using List.reverseRecOn with
  | nil => rfl
  | append_singleton log e ih =>
    rw [life_append, List.foldl_cons, List.foldl_nil] at h ⊢
    have hbefore : life a fd log ≠ .broken := by
      intro hbroken
      rw [hbroken, next_broken] at h
      exact h rfl
    rw [List.countP_append, ih hbefore]
    by_cases hconn : e.conn = some a
    · rw [next_of_eq hconn] at h ⊢
      rw [closings_after hconn h]
      simp [List.countP_cons]
    · rw [next_of_ne hconn]
      simp [NetEvent.closesOf_of_ne hconn]

theorem after_ne_unborn (l : Life) (e : NetEvent) : l.after a fd e ≠ .unborn := by
  unfold after
  split
  all_goals first
    | (split <;> simp)
    | simp

theorem foldl_ne_unborn (h : l ≠ .unborn) : events.foldl (next a fd) l ≠ .unborn := by
  induction events generalizing l with
  | nil => exact h
  | cons e events ih =>
    apply ih
    unfold next
    split
    · exact after_ne_unborn l e
    · exact h

theorem after_ne_refused (he : e ≠ .removed a) (hconn : e.conn = some a) :
    l.after a fd e ≠ .refused := by
  unfold after
  split
  all_goals first
    | (split <;> simp)
    | simp
  -- only the removal of a live connection is a refusal
  rename_i b
  cases hconn
  exact he rfl

theorem foldl_ne_refused (hevents : .removed a ∉ events) (h : l ≠ .refused) :
    events.foldl (next a fd) l ≠ .refused := by
  induction events generalizing l with
  | nil => exact h
  | cons e events ih =>
    apply ih (fun hmem => hevents (List.mem_cons_of_mem _ hmem))
    unfold next
    split
    · rename_i hconn
      apply after_ne_refused _ hconn
      rintro rfl
      exact hevents (List.mem_cons_self ..)
    · exact h

end Life

namespace Connections

variable {c c' : Connections} {events log : List NetEvent} {a : ConnectorPtr}

/-- The connection is about to be added, or its life has begun and is not at a refusal that left
its descriptor open. -/
def Settled (c : Connections) (a : ConnectorPtr) (log : List NetEvent) : Prop :=
  c.adding = .numbered a ∨ ∀ p, c.peer a = some p →
    life a p.fd log ≠ .unborn ∧ life a p.fd log ≠ .refused

/-- A peer is there only if it was there before or is about to be added. -/
theorem Step.new_peer (h : Step c events c') (hnone : c.peer a = none)
    (hnot : c'.adding ≠ .numbered a) : c'.peer a = none := by
  have hset : ∀ (b : ConnectorPtr) (q r : Peer), c.peer b = some q →
      (if a = b then some r else c.peer a) = none := by
    intro b q r hq
    rw [if_neg]
    · exact hnone
    · rintro rfl
      rw [hq] at hnone
      cases hnone
  cases h with
  | @output k d rest b q taken outgoing _ _ _ hfor _ => exact hset b q _ hfor.2.1
  | @shut b q _ hq => exact hset b q _ hq
  | @numbered b q _ _ _ _ =>
    refine (if_neg ?_).trans hnone
    rintro rfl
    exact hnot rfl
  | _ => exact hnone

/-- Where a step removes a connection. -/
theorem Step.removes (h : Step c events c') (hmem : .removed a ∈ events) :
    (events = [.removed a] ∧ c.closing = some (.del, a)) ∨
    (c.adding = .added a ∧ c'.adding = .idle ∧ (events = [.removed a] ∨
      ∃ p, c.peer a = some p ∧ events = [.removed a, .closeFd a p.fd])) := by
  -- only the third stage of a close and a refusal take a connection off the list
  cases h with
  | idle => cases hmem
  | input _ _ hevents => rcases hevents _ hmem with h | h <;> cases h
  | removed hclosing _ _ =>
    cases List.mem_singleton.mp hmem
    exact .inl ⟨rfl, hclosing⟩
  | @refused b _ p destroyed hadding _ _ hpeer =>
    right
    cases destroyed with
    | false =>
      simp only [Bool.false_eq_true, if_false] at hmem ⊢
      cases List.mem_singleton.mp hmem
      exact ⟨hadding, rfl, .inl rfl⟩
    | true =>
      simp only [if_true, List.mem_cons, List.not_mem_nil, or_false] at hmem ⊢
      rcases hmem with heq | heq
      · cases heq
        exact ⟨hadding, rfl, .inr ⟨p, hpeer, rfl⟩⟩
      · cases heq
  | accepted | pass | called | stopped | shut | added => simp at hmem
  | output => simp at hmem
  | released | numbered | registered => cases hmem

/-- A connection that was about to be added has been. -/
theorem Step.adds (h : Step c events c') (hnum : c.adding = .numbered a)
    (hnot : c'.adding ≠ .numbered a) : ∃ uid ip port, events = [.added a uid ip port] := by
  cases h with
  | @added b p hadding _ _ =>
    cases hnum.symm.trans hadding
    exact ⟨_, _, _, rfl⟩
  | numbered hidle => rw [hidle] at hnum; cases hnum
  | registered hadding => rw [hadding] at hnum; cases hnum
  | refused _ hadding => rw [hadding] at hnum; cases hnum
  | _ => exact absurd hnum hnot

/-- **Step**: connections stay settled if what is refused is destroyed. -/
theorem Settled.step (hlives : ∀ b, Lived c b log) (h : ∀ b, Settled c b log)
    (hrefused : RefusesLive c c' events)
    (hdestroys : ∀ b, c.adding = .added b → c'.adding = .idle → events ≠ [.removed b])
    (hstep : Step c events c') (a : ConnectorPtr) : Settled c' a (log ++ events) := by
  by_cases hnum' : c'.adding = .numbered a
  · exact .inl hnum'
  right
  intro p' hp'
  cases hpeer : c.peer a with
  | none =>
    -- a connection that is created is numbered
    rw [hstep.new_peer hpeer hnum'] at hp'
    cases hp'
  | some p =>
    -- its descriptor does not change
    obtain ⟨q, hq, -, hfd⟩ := hstep.same_peer hpeer
    cases hq.symm.trans hp'
    rw [hfd, life_append]
    rcases h a with hnum | hsettled
    -- its life begins with this step
    · obtain ⟨uid, ip, port, rfl⟩ := hstep.adds hnum hnum'
      have hunborn : life a p.fd log = .unborn :=
        (Life.life_of_no_event (((hlives a).fresh (.inr hnum)).1)).symm
      rw [hunborn, List.foldl_cons, List.foldl_nil, Life.next_of_eq rfl]
      exact ⟨by simp [Life.after], by simp [Life.after]⟩
    · obtain ⟨hborn, hkept⟩ := hsettled p hpeer
      refine ⟨Life.foldl_ne_unborn hborn, ?_⟩
      by_cases hmem : .removed a ∈ events
      · rcases hstep.removes hmem with ⟨rfl, hclosing⟩ |
          ⟨hadding, hidle, rfl | ⟨q', hq', rfl⟩⟩
        -- it was closed before
        · obtain ⟨r, hr, hlife⟩ := (hlives a).closing _ hclosing
          cases hpeer.symm.trans hr
          have hshut : life a p.fd log = .shut := congrArg Prod.fst hlife
          rw [hshut, List.foldl_cons, List.foldl_nil, Life.next_of_eq rfl]
          simp [Life.after]
        · exact absurd rfl (hdestroys a hadding hidle)
        -- it is destroyed with its refusal
        · cases hpeer.symm.trans hq'
          obtain ⟨hlisted, hnot⟩ := hrefused a hadding hidle hmem
          obtain ⟨r, hr, hlive⟩ := (hlives a).listed hnot hlisted
          cases hpeer.symm.trans hr
          rw [hlive]
          simp [Life.next, Life.after, NetEvent.conn]
      -- without a removal no life becomes a refused one
      · exact Life.foldl_ne_refused hmem hkept

end Connections

end Sails.Net
