import Sails.Base.EventTable.ProcessEvent

/-!
# Callbacks that change registrations

`process_event` looks at `isused` behind each callback, and then follows the link of the node it
was at. That is enough for `event_stop`, and not for the other ways to free the node.

- `Frees`: the calls that free a node of the list
- `mem_chainAfter_iff`: a node stays until such a call
- `SparesNode`: a callback frees its own node only if it leaves the descriptor unused
- `dispatch_tolerates_iff`: this is exactly what `process_event` tolerates
-/

namespace Sails.Base

open TransitionRun
open EventLoop

/-! ## The calls that free a node -/

/-- The call frees a node of the list of `fd`: its DEL takes the last bits of the event, the MOD and
`event_stop` free the whole list. The first event goes when the cached mask does. -/
def Frees (fd : Int) (a : Anfd) (l : NodeList Event) (node : Nat) : EventOp → Prop
  | .add _ _ => False
  | .del ev => ev.fd = fd ∧ a.isused = 1 ∧ a.events &&& ev.events ≠ 0 ∧
      if l.first = some node then a.events ^^^ ev.events = 0
      else ∃ e, l.read node = some e ∧ clearOne ev.events e = none
  | .mod ev _ => ev.fd = fd ∧ a.isused = 1
  | .stop fd' => fd' = fd ∧ a.isused = 1

variable {fd : Int} {a : Anfd} {op : EventOp} {l : NodeList Event} {node : Nat} {events mask : Mask}

theorem mem_clearCells {cells : List (Nat × Event)} :
    node ∈ (clearCells mask cells).map Prod.fst ↔
      ∃ e, (node, e) ∈ cells ∧ clearOne mask e ≠ none := by
  simp only [clearCells, List.mem_map, List.mem_filterMap]
  constructor
  · rintro ⟨c, ⟨⟨n, e⟩, hmem, hsome⟩, hnode⟩
    obtain ⟨e', hclear, hc⟩ := Option.map_eq_some_iff.mp hsome
    subst hc hnode
    exact ⟨e, hmem, by simp [hclear]⟩
  · rintro ⟨e, hmem, hne⟩
    obtain ⟨e', hclear⟩ := Option.ne_none_iff_exists'.mp hne
    exact ⟨(node, e'), ⟨(node, e), hmem, by simp [hclear]⟩, rfl⟩

/-- What `delete_event` leaves of the nodes. -/
theorem mem_deleteCells (h : node ∈ l.addresses) :
    node ∈ (deleteCells events mask l.cells).map Prod.fst ↔
      ¬ if l.first = some node then events ^^^ mask = 0
        else ∃ e, l.read node = some e ∧ clearOne mask e = none := by
  have hnodup := l.nodup
  have hread : ∀ e, l.read node = some e ↔ (node, e) ∈ l.cells := fun e =>
    NodeList.read_eq_some_iff
  obtain ⟨e, he⟩ : ∃ e, l.read node = some e := by
    obtain ⟨pre, e, post, hsplit⟩ := NodeList.exists_split h
    exact ⟨e, NodeList.read_of_split hsplit⟩
  cases hcells : l.cells with
  | nil =>
    rw [hread, hcells] at he
    exact absurd he List.not_mem_nil
  | cons c rest =>
    have hfirst : l.first = some c.1 := by rw [NodeList.first, NodeList.addresses, hcells]; rfl
    rw [hcells, List.map_cons, List.nodup_cons] at hnodup
    rw [deleteCells, hfirst]
    have hback : node ∈ (clearCells mask rest).map Prod.fst → node ∈ rest.map Prod.fst :=
      fun hmem => (clearCells_sublist mask rest).subset hmem
    by_cases hnode : c.1 = node
    -- the first event: only the cached mask counts
    · subst hnode
      rw [if_pos rfl]
      split
      · exact ⟨fun hmem => absurd (hback hmem) hnodup.1, fun hnot => absurd ‹_› hnot⟩
      · exact ⟨fun _ => ‹_›, fun _ => List.mem_cons_self ..⟩
    · rw [if_neg fun heq => hnode (Option.some.inj heq)]
      -- another node: whether the first one goes does not matter
      have hmem : node ∈ (if events ^^^ mask = 0 then clearCells mask rest
          else c :: clearCells mask rest).map Prod.fst ↔
          node ∈ (clearCells mask rest).map Prod.fst := by
        split
        · rfl
        · rw [List.map_cons, List.mem_cons]
          exact or_iff_right fun heq => hnode heq.symm
      have hrest : ∀ e', (node, e') ∈ rest ↔ l.read node = some e' := by
        intro e'
        rw [hread, hcells, List.mem_cons]
        exact (or_iff_right fun heq => hnode (congrArg Prod.fst heq).symm).symm
      rw [hmem, mem_clearCells]
      simp only [hrest, he, Option.some.injEq]
      constructor
      · rintro ⟨e', rfl, hne⟩ ⟨e'', rfl, hnone⟩
        exact hne hnone
      · intro hnot
        exact ⟨e, rfl, fun hnone => hnot ⟨e, rfl, hnone⟩⟩

/-- **A node stays** until a call frees it. -/
theorem mem_chainAfter_iff (htracked : Tracked a l) (h : node ∈ l.addresses) :
    node ∈ (chainAfter fd a op l).addresses ↔ ¬ Frees fd a l node op := by
  -- an entry that is not used has no nodes
  have hused : a.isused = 1 := by
    by_contra hunused
    have hvalues := htracked.values
    rw [Anfd.held_unused hunused, NodeList.values, List.map_eq_nil_iff] at hvalues
    rw [NodeList.addresses, hvalues] at h
    exact absurd h List.not_mem_nil
  have hnew : ∀ v : Event, node ∉ (l.only v).addresses := fun v hmem =>
    absurd (List.mem_singleton.mp hmem) (Nat.ne_of_lt (l.lt_allocated node h))
  have hgone : ∀ {p : Prop} [Decidable p] (l' : NodeList Event), node ∉ l'.addresses →
      (node ∈ (if p then l' else l).addresses ↔ ¬ p) := by
    intro p _ l' hl'
    split
    · exact ⟨fun hmem => absurd hmem hl', fun hnot => absurd ‹_› hnot⟩
    · exact ⟨fun _ => ‹_›, fun _ => h⟩
  cases op with
  | add ev reallocOk =>
    refine ⟨fun _ => id, fun _ => ?_⟩
    rw [chainAfter, if_pos hused]
    split
    · split
      · rw [NodeList.addresses_push]
        exact List.mem_append_left _ h
      · exact h
    · exact h
  | del ev =>
    rw [chainAfter, Frees]
    split
    · rename_i hhit
      change node ∈ (deleteCells a.events ev.events l.cells).map Prod.fst ↔ _
      rw [mem_deleteCells h]
      exact not_congr ⟨fun hfree => ⟨hhit.1, hhit.2.1, hhit.2.2, hfree⟩, fun hfree => hfree.2.2.2⟩
    · rename_i hmiss
      exact ⟨fun _ hfree => hmiss ⟨hfree.1, hfree.2.1, hfree.2.2.1⟩, fun _ => h⟩
  | mod ev reallocOk => exact hgone _ (hnew ev)
  | stop fd' => exact hgone _ List.not_mem_nil

/-- A call links one new node at most. -/
theorem chainAfter_addresses (h : node ∈ (chainAfter fd a op l).addresses) :
    node ∈ l.addresses ∨ node = l.allocated := by
  cases op with
  | add ev reallocOk =>
    rw [chainAfter] at h
    split at h
    · split at h
      · split at h
        · rwa [NodeList.addresses_push, List.mem_append, List.mem_singleton] at h
        · exact .inl h
      · exact .inr (List.mem_singleton.mp h)
    · exact .inl h
  | del ev =>
    rw [chainAfter] at h
    split at h
    · exact .inl ((deleteCells_sublist ..).subset h)
    · exact .inl h
  | mod ev reallocOk =>
    rw [chainAfter] at h
    split at h
    · exact .inr (List.mem_singleton.mp h)
    · exact .inl h
  | stop fd' =>
    rw [chainAfter] at h
    split at h
    · exact absurd h List.not_mem_nil
    · exact .inl h

theorem allocated_chainAfter : l.allocated ≤ (chainAfter fd a op l).allocated := by
  cases op with
  | add ev reallocOk =>
    rw [chainAfter]
    split
    · split
      · split
        · exact Nat.le_succ _
        · exact Nat.le_refl _
      · exact Nat.le_succ _
    · exact Nat.le_refl _
  | del ev =>
    rw [chainAfter]
    split <;> exact Nat.le_refl _
  | mod ev reallocOk =>
    rw [chainAfter]
    split
    · exact Nat.le_succ _
    · exact Nat.le_refl _
  | stop fd' =>
    rw [chainAfter]
    split <;> exact Nat.le_refl _

/-! ## Callbacks -/

/-- The descriptor is inside the table, and the nodes hold its list. -/
structure Tracks (fd : Int) (s : NodeLoop) : Prop where
  inside : 0 ≤ fd ∧ fd < s.loop.maxEvents
  tracked : Tracked (s.loop.entry fd) s.chain

variable {s t : NodeLoop} {c : CtlCall} {script : List CtlCall}

theorem nodeStep_ok (h : nodeStep fd s c = .ok t) :
    (∃ ok, EventLoop.eventCtl { s.loop with epoll := c.epoll } c.op = .ok (t.loop, ok)) ∧
      t.chain = chainAfter fd (s.loop.entry fd) c.op s.chain := by
  cases hctl : EventLoop.eventCtl { s.loop with epoll := c.epoll } c.op with
  | error f =>
    simp only [nodeStep, hctl] at h
    cases h
  | ok p =>
    simp only [nodeStep, hctl] at h
    cases h
    exact ⟨⟨p.2, rfl⟩, rfl⟩

theorem Tracks.step (h : Tracks fd s) (hstep : nodeStep fd s c = .ok t) : Tracks fd t := by
  obtain ⟨⟨ok, hctl⟩, hchain⟩ := nodeStep_ok hstep
  have hmax : s.loop.maxEvents ≤ t.loop.maxEvents := (eventCtl_frame hctl).1
  refine ⟨⟨h.inside.1, by have := h.inside.2; omega⟩, ?_⟩
  rw [hchain]
  exact Tracked.after (s := { s.loop with epoll := c.epoll }) h.tracked h.inside hctl

/-- **A node after a script** is in the list when no call of the script has freed it. -/
theorem mem_script_iff (h : Tracks fd s) (hmem : node ∈ s.chain.addresses)
    (hrun : run (nodeStep fd) s script = .ok t) :
    Tracks fd t ∧ (node ∈ t.chain.addresses ↔
      Along (nodeStep fd) (fun s c => ¬ Frees fd (s.loop.entry fd) s.chain node c.op)
        s script) := by
  refine ⟨run_invariant' (fun s c t hs hstep => hs.step hstep) h hrun, ?_⟩
  have hstep : ∀ (s : NodeLoop) (c : CtlCall) (t : NodeLoop),
      (Tracks fd s ∧ node < s.chain.allocated) → nodeStep fd s c = .ok t →
      (Tracks fd t ∧ node < t.chain.allocated) ∧ (node ∈ t.chain.addresses ↔
        node ∈ s.chain.addresses ∧ ¬ Frees fd (s.loop.entry fd) s.chain node c.op) := by
    rintro s c t ⟨htracks, hlt⟩ hok
    obtain ⟨-, hchain⟩ := nodeStep_ok hok
    refine ⟨⟨htracks.step hok, ?_⟩, ?_⟩
    · rw [hchain]
      exact Nat.lt_of_lt_of_le hlt allocated_chainAfter
    · rw [hchain]
      constructor
      -- an address that has been given out does not come back
      · intro hafter
        have hbefore := (chainAfter_addresses hafter).resolve_right (Nat.ne_of_lt hlt)
        exact ⟨hbefore, (mem_chainAfter_iff htracks.tracked hbefore).mp hafter⟩
      · rintro ⟨hbefore, hspared⟩
        exact (mem_chainAfter_iff htracks.tracked hbefore).mpr hspared
  exact (run_iff_along hstep ⟨h, s.chain.lt_allocated node hmem⟩ hrun).trans (and_iff_right hmem)

/-! ## What is tolerated -/

/-- The iteration calls the callback of the event. -/
def CallsBack (fd : Int) (events : Mask) (e : Event) : Prop :=
  e.cb ≠ none ∧ e.events &&& events ≠ 0 ∧ e.fd = fd

/-- The callback of the iteration does not free the node it is called for, or it leaves the
descriptor unused. -/
def SparesNode (fd : Int) (events : Mask) (d : Dispatch) (script : List CtlCall) : Prop :=
  ∀ node e t, d.cursor = some node → d.state.chain.read node = some e → CallsBack fd events e →
    run (nodeStep fd) d.state script = .ok t → (t.loop.entry fd).isused = 1 →
    Along (nodeStep fd) (fun s c => ¬ Frees fd (s.loop.entry fd) s.chain node c.op) d.state script

/-- So do all callbacks of a dispatch. -/
def SparesNodes (s : EventLoop) (fd : Int) (events : Mask) (scripts : List (List CtlCall)) : Prop :=
  ∀ d, dispatchStart s fd events = .ok d →
    Along (dispatchStep fd events) (SparesNode fd events) d scripts

/-- No callback changes what is registered for the descriptor. -/
def KeepsRegistrations (s : EventLoop) (fd : Int) (events : Mask)
    (scripts : List (List CtlCall)) : Prop :=
  ∀ d, dispatchStart s fd events = .ok d →
    Along (dispatchStep fd events) (fun d script => ∀ d', dispatchStep fd events d script = .ok d' →
      d'.state.loop.entry fd = d.state.loop.entry fd ∧ d'.state.chain.cells = d.state.chain.cells)
      d scripts

/-- `process_event` follows nodes of the list only, calls the callbacks of registered events of the
fired mask only, and all of them in order when the registrations stay as they are. -/
structure Tolerates (s : EventLoop) (fd : Int) (events : Mask) (scripts : List (List CtlCall)) :
    Prop where
  follows : ∀ f, processEvent s fd events scripts ≠ .error (.processEvent f)
  calls : ∀ d, processEvent s fd events scripts = .ok d →
    ∀ c ∈ d.calls, c.event ∈ c.registered ∧ c.event.events &&& events ≠ 0
  complete : (∀ e ∈ (s.entry fd).held, e.cb ≠ none) →
    (s.entry fd).held.length ≤ scripts.length → KeepsRegistrations s fd events scripts →
    ∀ d, processEvent s fd events scripts = .ok d → d.cursor = none ∧
      d.calls.map CallbackCall.event =
        (s.entry fd).held.filter fun e => decide (e.events &&& events ≠ 0)

/-! ## One iteration -/

/-- What an iteration keeps: while the loop is not left, its pointer is into the list. -/
structure Ready (fd : Int) (events : Mask) (d : Dispatch) : Prop where
  calls : ∀ c ∈ d.calls, c.event ∈ c.registered ∧ c.event.events &&& events ≠ 0
  tracks : d.cursor ≠ none → Tracks fd d.state
  pointer : ∀ node, d.cursor = some node →
    (d.state.loop.entry fd).isused = 1 ∧ node ∈ d.state.chain.addresses

variable {d d' : Dispatch} {e : Event}

/-- The callback of an iteration returned. -/
def Dispatch.returned (fd : Int) (d : Dispatch) (e : Event) (t : NodeLoop) : Dispatch :=
  { d with
    state := t
    calls := d.calls ++ [{ event := e, registered := (d.state.loop.entry fd).held }] }

/-- The end of an iteration: the link of a node that is gone is followed, or the loop goes on. -/
theorem advance_cases (hfd : 0 ≤ fd ∧ fd < d.state.loop.maxEvents) (node : Nat) :
    (d.state.loop.entry fd).isused ≠ 0 ∧ node ∉ d.state.chain.addresses ∧
        d.advance fd node = .error (.processEvent .dangling) ∨
      ∃ next, d.advance fd node = .ok { d with cursor := next } ∧
        ((d.state.loop.entry fd).isused ≠ 0 → d.state.chain.next node = some next) ∧
        ((d.state.loop.entry fd).isused = 0 → next = none) := by
  have hload : d.state.loop.load fd = .ok (d.state.loop.entry fd) := if_pos hfd
  simp only [Dispatch.advance, hload]
  by_cases hused : (d.state.loop.entry fd).isused = 0
  · rw [if_neg (not_not.mpr hused)]
    exact .inr ⟨none, rfl, fun hne => absurd hused hne, fun _ => rfl⟩
  · rw [if_pos hused]
    cases hnext : d.state.chain.next node with
    | none => exact .inl ⟨hused, NodeList.next_eq_none_iff.mp hnext, rfl⟩
    | some next => exact .inr ⟨next, rfl, fun _ => rfl, fun hzero => absurd hzero hused⟩

/-- **What an iteration does** at a node of the list: the loop is left at a null callback, the
callback fails, or returns, or the event does not match. -/
theorem dispatchStep_cases (hcursor : d.cursor = some node)
    (hread : d.state.chain.read node = some e) (script : List CtlCall) :
    (e.cb = none ∧ dispatchStep fd events d script = .ok { d with cursor := none }) ∨
      (∃ f, run (nodeStep fd) d.state script = .error f ∧
        dispatchStep fd events d script = .error (.callback f)) ∨
      (∃ t, CallsBack fd events e ∧ run (nodeStep fd) d.state script = .ok t ∧
        dispatchStep fd events d script = (d.returned fd e t).advance fd node) ∨
      (e.cb ≠ none ∧ ¬ (e.events &&& events ≠ 0 ∧ e.fd = fd) ∧
        dispatchStep fd events d script = d.advance fd node) := by
  simp only [dispatchStep, hcursor, hread]
  by_cases hcb : e.cb = none
  · exact .inl ⟨hcb, if_pos hcb⟩
  · rw [if_neg hcb]
    by_cases hmatch : e.events &&& events ≠ 0 ∧ e.fd = fd
    · rw [if_pos hmatch]
      cases hrun : run (nodeStep fd) d.state script with
      | error f =>
        refine .inr (.inl ⟨f, rfl, ?_⟩)
        simp only [Dispatch.call, hrun]
      | ok t =>
        refine .inr (.inr (.inl ⟨t, ⟨hcb, hmatch⟩, rfl, ?_⟩))
        simp only [Dispatch.call, hrun, Dispatch.returned]
    · exact .inr (.inr (.inr ⟨hcb, hmatch, if_neg hmatch⟩))

theorem dispatchStep_left (hcursor : d.cursor = none) (script : List CtlCall) :
    dispatchStep fd events d script = .ok d := by
  simp only [dispatchStep, hcursor]

theorem Ready.returned (h : Ready fd events d) (hcursor : d.cursor = some node)
    (hread : d.state.chain.read node = some e) (hcalls : CallsBack fd events e) :
    ∀ c ∈ (d.returned fd e t).calls, c.event ∈ c.registered ∧ c.event.events &&& events ≠ 0 := by
  intro c hc
  rcases List.mem_append.mp hc with hmem | hlast
  · exact h.calls c hmem
  · rw [List.mem_singleton.mp hlast]
    refine ⟨?_, hcalls.2.1⟩
    have htracks := h.tracks (by rw [hcursor]; exact Option.some_ne_none node)
    rw [← htracks.tracked.values]
    exact NodeList.mem_values hread

/-- **An iteration whose callback spares the node** goes on, unless the callback itself failed. -/
theorem Ready.step (h : Ready fd events d) (hspares : SparesNode fd events d script) :
    (∀ f, dispatchStep fd events d script ≠ .error (.processEvent f)) ∧
      ∀ d', dispatchStep fd events d script = .ok d' → Ready fd events d' := by
  cases hcursor : d.cursor with
  | none =>
    rw [dispatchStep_left hcursor]
    refine ⟨fun f hf => (by cases hf), fun d' hd' => ?_⟩
    cases hd'
    exact h
  | some node =>
    have htracks := h.tracks (by rw [hcursor]; exact Option.some_ne_none node)
    obtain ⟨hused, hmem⟩ := h.pointer node hcursor
    obtain ⟨pre, e, post, hsplit⟩ := NodeList.exists_split hmem
    have hread := NodeList.read_of_split hsplit
    -- all that is left is where the pointer goes
    have hadvance : ∀ d₁ : Dispatch, Tracks fd d₁.state →
        (∀ c ∈ d₁.calls, c.event ∈ c.registered ∧ c.event.events &&& events ≠ 0) →
        ((d₁.state.loop.entry fd).isused = 1 → node ∈ d₁.state.chain.addresses) →
        (∀ f, d₁.advance fd node ≠ .error (.processEvent f)) ∧
          ∀ d', d₁.advance fd node = .ok d' → Ready fd events d' := by
      intro d₁ htracks₁ hcalls₁ hthere
      have hused₁ := htracks₁.tracked.isused
      rcases advance_cases htracks₁.inside node with ⟨hne, hgone, -⟩ | ⟨next, hok, hlink, hnull⟩
      · exact absurd (hthere (hused₁.resolve_left hne)) hgone
      · rw [hok]
        refine ⟨fun f hf => (by cases hf), fun d' hd' => ?_⟩
        cases hd'
        refine ⟨hcalls₁, fun _ => htracks₁, fun m hm => ?_⟩
        have hnext : next = some m := hm
        rcases hused₁ with hzero | hone
        · rw [hnull hzero] at hnext
          cases hnext
        · refine ⟨hone, NodeList.mem_of_next ((hlink ?_).trans (congrArg some hnext))⟩
          rw [hone]
          decide
    rcases dispatchStep_cases hcursor hread script with
      ⟨-, hstep⟩ | ⟨f, -, hstep⟩ | ⟨t, hcalls, hrun, hstep⟩ | ⟨-, -, hstep⟩
    · rw [hstep]
      refine ⟨fun f hf => (by cases hf), fun d' hd' => ?_⟩
      cases hd'
      exact ⟨h.calls, fun hne => absurd rfl hne, fun m hm => by cases hm⟩
    · rw [hstep]
      exact ⟨fun f' hf' => (by cases hf'), fun d' hd' => (by cases hd')⟩
    · obtain ⟨htracks', hstays⟩ := mem_script_iff htracks hmem hrun
      rw [hstep]
      exact hadvance (d.returned fd e t) htracks' (h.returned hcursor hread hcalls)
        fun hused' => hstays.mpr (hspares node e t hcursor hread hcalls hrun hused')
    · rw [hstep]
      exact hadvance d htracks h.calls fun _ => hmem

/-- **A callback that frees the node** it is called for, and leaves the descriptor used: the link
of a freed node is followed. -/
theorem Ready.strays (h : Ready fd events d) (hfrees : ¬ SparesNode fd events d script) :
    dispatchStep fd events d script = .error (.processEvent .dangling) := by
  simp only [SparesNode, not_forall] at hfrees
  obtain ⟨node, e, t, hcursor, hread, hcalls, hrun, hused, hnot⟩ := hfrees
  have htracks := h.tracks (by rw [hcursor]; exact Option.some_ne_none node)
  -- the callback returns, and the descriptor is used
  obtain ⟨htracks', hstays⟩ := mem_script_iff htracks (h.pointer node hcursor).2 hrun
  rcases dispatchStep_cases hcursor hread script with
    ⟨hcb, -⟩ | ⟨f, hfails, -⟩ | ⟨t', -, hrun', hstep⟩ | ⟨-, hmiss, -⟩
  · exact absurd hcb hcalls.1
  · rw [hrun] at hfails
    cases hfails
  · cases hrun.symm.trans hrun'
    rw [hstep]
    rcases advance_cases (d := d.returned fd e t) htracks'.inside node with
      ⟨-, -, hstrays⟩ | ⟨next, -, hlink, -⟩
    · exact hstrays
    -- the node is not in the list, so it has no link to follow
    · have hgone : t.chain.next node = none :=
        NodeList.next_eq_none_iff.mpr fun hmem => hnot (hstays.mp hmem)
      have hthere : t.chain.next node = some next := hlink fun hzero =>
        absurd (hused.symm.trans hzero) (by decide)
      rw [hgone] at hthere
      cases hthere
  · exact absurd hcalls.2 hmiss

/-! ## The beginning -/

/-- Where the loop begins: it has nothing to do, or is at the first node of a used entry. -/
structure Started (s : EventLoop) (fd : Int) (events : Mask) (d : Dispatch) : Prop where
  loop : d.state.loop = s
  calls : d.calls = []
  cursor : d.cursor = none ∧
      (s.entry fd).held.filter (fun e => decide (e.events &&& events ≠ 0)) = [] ∨
    Tracks fd d.state ∧ (s.entry fd).isused = 1 ∧ d.cursor = d.state.chain.first

/-- An event of the fired mask is seen in the cached mask. -/
theorem and_eq_zero_of_mem {es : List Event} (he : e ∈ es)
    (hmiss : unionMask es &&& events = 0) : e.events &&& events = 0 := by
  have hor := or_unionMask_of_mem he
  rw [← hor, BitVec.and_or_distrib_right] at hmiss
  exact (BitVec.or_eq_zero_iff.mp hmiss).1

theorem dispatchStart_ok {s : EventLoop} (hs : s.WellFormed) (events : Mask)
    (hfd : fd ≠ s.maxEvents) :
    ∃ d, dispatchStart s fd events = .ok d ∧ Started s fd events d := by
  -- a descriptor outside the table has no entry that is used
  by_cases hrange : fd < 0 ∨ fd > s.maxEvents
  · refine ⟨_, if_pos hrange, rfl, rfl, .inl ⟨rfl, ?_⟩⟩
    have hunused : (s.entry fd).isused ≠ 1 := fun hused => by
      have hinside := range_of_used hused
      omega
    rw [Anfd.held_unused hunused]
    rfl
  · have hinside : 0 ≤ fd ∧ fd < s.maxEvents := by omega
    have hload : s.load fd = .ok (s.entry fd) := if_pos hinside
    simp only [dispatchStart, if_neg hrange, hload]
    by_cases hused : (s.entry fd).isused = 1
    · rw [if_neg (not_not.mpr hused)]
      by_cases hhit : (s.entry fd).events &&& events = 0
      · rw [if_neg (not_not.mpr hhit)]
        refine ⟨_, rfl, rfl, rfl, .inl ⟨rfl, ?_⟩⟩
        -- the cached mask misses, so every event of the list does
        obtain ⟨es, hnext, -, -, hcached⟩ := hs fd hused
        rw [Anfd.held_used hused, hnext]
        refine List.filter_eq_nil_iff.mpr fun e he => ?_
        rw [hcached] at hhit
        simp [and_eq_zero_of_mem he hhit]
      · rw [if_pos hhit]
        refine ⟨_, rfl, rfl, rfl, .inr ⟨⟨hinside, .inr hused, ?_⟩, hused, rfl⟩⟩
        rw [Anfd.held_used hused]
        exact NodeList.values_ofList _
    · rw [if_pos hused]
      refine ⟨_, rfl, rfl, rfl, .inl ⟨rfl, ?_⟩⟩
      rw [Anfd.held_unused hused]
      rfl

theorem Started.ready {s : EventLoop} (h : Started s fd events d) : Ready fd events d := by
  refine ⟨fun c hc => ?_, fun hne => ?_, fun node hnode => ?_⟩
  · rw [h.calls] at hc
    exact absurd hc List.not_mem_nil
  · exact (h.cursor.resolve_left fun hnone => hne hnone.1).1
  · rcases h.cursor with ⟨hnone, -⟩ | ⟨-, hused, hfirst⟩
    · rw [hnone] at hnode
      cases hnode
    · rw [h.loop]
      exact ⟨hused, List.mem_of_mem_head? (hfirst.symm.trans hnode)⟩

/-! ## Registrations that stay as they are -/

theorem run_left (hcursor : d.cursor = none) (scripts : List (List CtlCall)) :
    run (dispatchStep fd events) d scripts = .ok d := by
  induction scripts with
  | nil => rfl
  | cons script scripts ih =>
    rw [run_cons_ok (dispatchStep_left hcursor script)]
    exact ih

/-- An iteration at a node with a callback: afterwards the pointer is the link of the node, if the
descriptor is used still. -/
theorem dispatchStep_ok (htracks : Tracks fd d.state) (hcursor : d.cursor = some node)
    (hread : d.state.chain.read node = some e) (hcb : e.cb ≠ none)
    (hstep : dispatchStep fd events d script = .ok d') :
    Tracks fd d'.state ∧
      d'.calls.map CallbackCall.event = d.calls.map CallbackCall.event ++
        (if e.events &&& events ≠ 0 ∧ e.fd = fd then [e] else []) ∧
      ((d'.state.loop.entry fd).isused = 1 → d'.state.chain.next node = some d'.cursor) := by
  -- the end of the iteration changes the pointer only
  have hadvance : ∀ d₁ : Dispatch, Tracks fd d₁.state → d₁.advance fd node = .ok d' →
      d'.state = d₁.state ∧ d'.calls = d₁.calls ∧
        ((d'.state.loop.entry fd).isused = 1 → d'.state.chain.next node = some d'.cursor) := by
    intro d₁ htracks₁ hok
    rcases advance_cases htracks₁.inside node with ⟨-, -, hstrays⟩ | ⟨next, hnext, hlink, -⟩
    · rw [hstrays] at hok
      cases hok
    · rw [hnext] at hok
      cases hok
      exact ⟨rfl, rfl, fun hused => hlink fun hzero => absurd (hused.symm.trans hzero) (by decide)⟩
  rcases dispatchStep_cases hcursor hread script with
    ⟨hnone, -⟩ | ⟨f, -, hfails⟩ | ⟨t, hcalls, hrun, hok⟩ | ⟨-, hmiss, hok⟩
  · exact absurd hnone hcb
  · rw [hfails] at hstep
    cases hstep
  · rw [hok] at hstep
    have htracks' := (mem_script_iff htracks (NodeList.mem_addresses_of_read hread) hrun).1
    obtain ⟨hstate, hcallsEq, hnext⟩ := hadvance (d.returned fd e t) htracks' hstep
    refine ⟨by rw [hstate]; exact htracks', ?_, hnext⟩
    rw [hcallsEq, if_pos hcalls.2, Dispatch.returned, List.map_append]
    rfl
  · rw [hok] at hstep
    obtain ⟨hstate, hcallsEq, hnext⟩ := hadvance d htracks hstep
    exact ⟨by rw [hstate]; exact htracks, by rw [hcallsEq, if_neg hmiss, List.append_nil], hnext⟩

/-- **The walk** over nodes that stay: by induction on the nodes still to come. -/
theorem walk_complete {rest : List (Nat × Event)} (done : List (Nat × Event))
    {scripts : List (List CtlCall)} (htracks : Tracks fd d.state)
    (hused : (d.state.loop.entry fd).isused = 1) (hcells : d.state.chain.cells = done ++ rest)
    (hcursor : d.cursor = rest.head?.map Prod.fst)
    (hcalls : d.calls.map CallbackCall.event =
      (done.map Prod.snd).filter fun e => decide (e.events &&& events ≠ 0))
    (hevents : ∀ c ∈ rest, c.2.cb ≠ none ∧ c.2.fd = fd) (hlength : rest.length ≤ scripts.length)
    (hkeeps : Along (dispatchStep fd events) (fun d script => ∀ d',
      dispatchStep fd events d script = .ok d' →
      d'.state.loop.entry fd = d.state.loop.entry fd ∧ d'.state.chain.cells = d.state.chain.cells)
      d scripts) (hrun : run (dispatchStep fd events) d scripts = .ok d') :
    d'.cursor = none ∧ d'.calls.map CallbackCall.event =
      ((done ++ rest).map Prod.snd).filter fun e => decide (e.events &&& events ≠ 0) := by
  induction rest generalizing done d scripts with
  | nil =>
    have hnone : d.cursor = none := hcursor
    rw [run_left hnone] at hrun
    cases hrun
    rw [List.append_nil]
    exact ⟨hnone, hcalls⟩
  | cons c rest ih =>
    -- the pointer is at `c`; what is done moves behind it
    cases scripts with
    | nil => exact absurd hlength (Nat.not_succ_le_zero _)
    | cons script scripts =>
      obtain ⟨d₁, hstep, hrest⟩ := run_cons_eq_ok hrun
      obtain ⟨hcb, hfd⟩ := hevents c (List.mem_cons_self ..)
      have hread := NodeList.read_of_split (n := c.1) (v := c.2) hcells
      obtain ⟨htracks₁, hcalls₁, hnext₁⟩ :=
        dispatchStep_ok htracks hcursor hread hcb hstep
      obtain ⟨hentry, hsame⟩ := hkeeps.head d₁ hstep
      have hused₁ : (d₁.state.loop.entry fd).isused = 1 := by rw [hentry, hused]
      have hcells₁ : d₁.state.chain.cells = done ++ c :: rest := hsame.trans hcells
      -- the link of `c` leads to the next node
      have hcursor₁ : d₁.cursor = rest.head?.map Prod.fst := by
        have hlink := NodeList.next_of_split (n := c.1) (v := c.2) hcells₁
        rw [hnext₁ hused₁] at hlink
        exact Option.some.inj hlink
      rw [List.append_cons]
      refine ih (done ++ [c]) htracks₁ hused₁ (by rw [hcells₁, List.append_cons]) hcursor₁ ?_
        (fun c' hc' => hevents c' (List.mem_cons_of_mem _ hc')) (Nat.le_of_succ_le_succ hlength)
        (hkeeps.tail hstep) hrest
      rw [hcalls₁, hcalls, List.map_append, List.filter_append, List.map_singleton]
      by_cases hmatch : c.2.events &&& events = 0
      · rw [if_neg fun hand => hand.1 hmatch, List.filter_cons_of_neg (by simp [hmatch])]
        rfl
      · rw [if_pos ⟨hmatch, hfd⟩, List.filter_cons_of_pos (by simpa using hmatch)]
        rfl

/-! ## A whole dispatch -/

variable {s : EventLoop} {scripts : List (List CtlCall)}

/-- `anfds[max_events]` is read. -/
theorem processEvent_behind (events : Mask) (scripts : List (List CtlCall)) :
    processEvent s s.maxEvents events scripts = .error (.processEvent .outOfBounds) := by
  have hmax : 0 ≤ s.maxEvents := Int.natCast_nonneg _
  have hload : s.load s.maxEvents = .error .outOfBounds :=
    if_neg fun hinside => Int.lt_irrefl _ hinside.2
  have hrange : ¬ (s.maxEvents < 0 ∨ s.maxEvents > s.maxEvents) := by omega
  simp only [processEvent, dispatchStart, if_neg hrange, hload]

/-- **Over all iterations**: the loop faults itself exactly when some callback frees its node. -/
theorem Ready.follows_iff (h : Ready fd events d) (scripts : List (List CtlCall)) :
    (∀ f, run (dispatchStep fd events) d scripts ≠ .error (.processEvent f)) ↔
      Along (dispatchStep fd events) (SparesNode fd events) d scripts := by
  have hblame : (∀ e, run (dispatchStep fd events) d scripts = .error e →
      ¬ ∃ f, e = .processEvent f) ↔
      Along (dispatchStep fd events) (SparesNode fd events) d scripts := by
    refine run_avoids_iff_along (I := Ready fd events) (fun d script hd hspares => ?_)
      (fun d script hd hfrees => ⟨_, hd.strays hfrees, _, rfl⟩) h
    obtain ⟨havoids, hnext⟩ := hd.step hspares
    refine ⟨?_, hnext⟩
    rintro e he ⟨f, rfl⟩
    exact havoids f he
  rw [← hblame]
  constructor
  · rintro h e he ⟨f, rfl⟩
    exact h f he
  · exact fun h f hf => h _ hf ⟨f, rfl⟩

/-- **Every event of the mask is called once**, in order, when the registrations stay. -/
theorem Started.complete (h : Started s fd events d) (hs : s.WellFormed)
    (hcb : ∀ e ∈ (s.entry fd).held, e.cb ≠ none)
    (hlength : (s.entry fd).held.length ≤ scripts.length)
    (hkeeps : Along (dispatchStep fd events) (fun d script => ∀ d',
      dispatchStep fd events d script = .ok d' →
      d'.state.loop.entry fd = d.state.loop.entry fd ∧ d'.state.chain.cells = d.state.chain.cells)
      d scripts) (hrun : run (dispatchStep fd events) d scripts = .ok d') :
    d'.cursor = none ∧ d'.calls.map CallbackCall.event =
      (s.entry fd).held.filter fun e => decide (e.events &&& events ≠ 0) := by
  rcases h.cursor with ⟨hnone, hmiss⟩ | ⟨htracks, hused, hfirst⟩
  -- nothing to do: the mask misses the entry
  · rw [run_left hnone] at hrun
    cases hrun
    rw [h.calls, hmiss]
    exact ⟨hnone, rfl⟩
  · have hvalues : d.state.chain.values = (s.entry fd).held := by
      rw [← h.loop]
      exact htracks.tracked.values
    -- the events of a well-formed entry are for its descriptor
    have hevents : ∀ c ∈ d.state.chain.cells, c.2.cb ≠ none ∧ c.2.fd = fd := by
      intro c hc
      have hmem : c.2 ∈ (s.entry fd).held := by
        rw [← hvalues]
        exact List.mem_map_of_mem hc
      obtain ⟨es, hnext, -, hes, -⟩ := hs fd hused
      refine ⟨hcb c.2 hmem, (hes c.2 ?_).2⟩
      rwa [Anfd.held_used hused, hnext] at hmem
    have hroom : d.state.chain.cells.length ≤ scripts.length := by
      rw [← hvalues, NodeList.values, List.length_map] at hlength
      exact hlength
    have hwalk := walk_complete [] htracks (by rw [h.loop]; exact hused)
      (List.nil_append d.state.chain.cells).symm
      (by rw [hfirst, NodeList.first, NodeList.addresses, List.head?_map])
      (by rw [h.calls]; rfl) hevents hroom hkeeps hrun
    rw [← hvalues]
    exact hwalk

/-- **Dispatch tolerates** what its callbacks do exactly when the descriptor is not the one behind
the table, and no callback frees the node it is called for, but with the descriptor unused. -/
theorem dispatch_tolerates_iff {s : EventLoop} (hs : s.WellFormed) (fd : Int) (events : Mask)
    (scripts : List (List CtlCall)) :
    Tolerates s fd events scripts ↔ fd ≠ s.maxEvents ∧ SparesNodes s fd events scripts := by
  by_cases hfd : fd = s.maxEvents
  · subst hfd
    exact ⟨fun h => absurd (processEvent_behind events scripts) (h.follows .outOfBounds),
      fun h => absurd rfl h.1⟩
  · obtain ⟨d, hstart, hstarted⟩ := dispatchStart_ok hs events hfd
    have hready := hstarted.ready
    have hprocess : processEvent s fd events scripts = run (dispatchStep fd events) d scripts := by
      simp only [processEvent, hstart]
    have hspares : SparesNodes s fd events scripts ↔
        Along (dispatchStep fd events) (SparesNode fd events) d scripts := by
      refine ⟨fun h => h d hstart, fun h d' hd' => ?_⟩
      -- `dispatchStart` has one outcome
      cases hstart.symm.trans hd'
      exact h
    -- the faults of the loop are the scripts that free their node
    have hfollows := hready.follows_iff scripts
    rw [← hprocess] at hfollows
    rw [and_iff_right hfd, hspares]
    refine ⟨fun h => hfollows.mp h.follows, fun hall => ⟨hfollows.mpr hall, ?_, ?_⟩⟩
    · intro d' hd'
      rw [hprocess] at hd'
      exact (run_invariant (fun d script d' hd hspares hstep => (hd.step hspares).2 d' hstep) hready
        hall hd').calls
    · intro hcb hlength hkeeps d' hd'
      rw [hprocess] at hd'
      exact hstarted.complete hs hcb hlength (hkeeps d hstart) hd'

/-- An event for reading, with a callback. -/
def readEvent : Event := { fd := 5, events := eventRead, edata := 0, cb := some 0, data := 0 }

theorem wellFormed_afterFirstAdd : (afterFirstAdd 3 readEvent).WellFormed := by
  have hinside : 0 ≤ readEvent.fd ∧ readEvent.fd < (EventLoop.init 3).maxEvents := by
    rw [maxEvents_init]
    decide
  have hchanges : Changes (EventLoop.init 3) (afterFirstAdd 3 readEvent) readEvent.fd
      (Anfd.fresh.withFirst readEvent) := changes_store hinside rfl
  exact TableFormed.wellFormed
    (hchanges.formed (tableFormed_init 3) (withFirst_formed _ ⟨by decide, by decide⟩))

set_option maxRecDepth 20000 in
/-- The callback stops its own descriptor. -/
theorem dispatch_tolerates_iff_stop : Tolerates (afterFirstAdd 3 readEvent) 5 eventRead
    [[{ op := .stop 5, epoll := fun _ => none }]] := by
  refine (dispatch_tolerates_iff wellFormed_afterFirstAdd 5 eventRead _).mpr ⟨by decide, ?_⟩
  intro d hd
  refine ⟨fun node e t _ _ _ hrun hused => ?_, fun _ _ => trivial⟩
  cases hd
  cases hrun
  cases hused

set_option maxRecDepth 20000 in
/-- The callback takes its own event away: the entry is used still, and the link of the node that
`delete_event` has freed is followed. -/
theorem dispatch_follows_freed : (afterFirstAdd 3 readEvent).WellFormed ∧
    processEvent (afterFirstAdd 3 readEvent) 5 eventRead
      [[{ op := .del readEvent, epoll := fun _ => some 0 }]] =
        .error (.processEvent .dangling) ∧
    ¬ Tolerates (afterFirstAdd 3 readEvent) 5 eventRead
      [[{ op := .del readEvent, epoll := fun _ => some 0 }]] :=
  ⟨wellFormed_afterFirstAdd, rfl, fun h => h.follows .dangling rfl⟩

end Sails.Base
