import Sails.Base.EventTable.Reentrancy
import Sails.Library.FirstIterate

/-!
# Where the table is indexed

Each function has its own range test, or none.

- `growCount_reaches`: what the loop of `array_needsize` ends with, unless it overflows
- `Sized`: the lengths that the table of a reachable loop can have
- `InsideTable`: a call stays inside the table, and grows it as it should
- `table_access_iff`: it does so exactly for the descriptors of `InDomain`
-/

namespace Sails.Base

open TransitionRun
open EventLoop

/-! ## Sizes -/

theorem growOnce_strictMono : StrictMono growOnce := by
  intro m n hmn
  unfold growOnce
  omega

/-- The loop ends with the first size that suffices, if that is an `int`. -/
theorem growCount_reaches (needCnt cur : Nat) : ∃ newcnt, Reaches growOnce needCnt cur newcnt ∧
    growCount needCnt cur = if newcnt > intMax then .error .overflow else .ok newcnt := by
  induction cur using growCount.induct needCnt with
  | case1 cur hover =>
    -- the sizes only grow, so the last one is none either
    obtain ⟨newcnt, hreaches, hle⟩ := Reaches.exists_of_lt lt_growOnce needCnt cur
    refine ⟨newcnt, hreaches, ?_⟩
    rw [growCount, if_pos hover, if_pos (Nat.lt_of_lt_of_le hover hle)]
  | case2 cur hover hgt ih =>
    obtain ⟨newcnt, hreaches, heq⟩ := ih
    refine ⟨newcnt, .step hgt hreaches, ?_⟩
    rw [growCount, if_neg hover, if_pos hgt]
    exact heq
  | case3 cur hover hle =>
    refine ⟨growOnce cur, .last (Nat.le_of_not_lt hle), ?_⟩
    rw [growCount, if_neg hover, if_neg hle, if_neg hover]

/-- The largest table that can be grown from `INIT_EVENTS` entries. -/
def largestTable : Nat := 1502502227

theorem iterate_largestTable : growOnce^[35] initEvents = largestTable := by decide

/-- The lengths of reachable tables. -/
def Sized (s : EventLoop) : Prop :=
  ∃ k, s.anfds.length = growOnce^[k] initEvents ∧ s.anfds.length ≤ intMax

theorem sized_le_largestTable {k : Nat} :
    growOnce^[k] initEvents ≤ intMax ↔ growOnce^[k] initEvents ≤ largestTable := by
  rw [← iterate_largestTable]
  exact Reaches.iterate_le_iff growOnce_strictMono (lt_growOnce _) (by decide) (by decide)

variable {s t : EventLoop} {ev : Event} {fd : Int} {op : EventOp} {reallocOk ok : Bool}

/-- A size that is computed without overflow is the first that suffices. -/
theorem EventLoop.GrowsTo.reaches {newcnt : Nat} (h : s.GrowsTo fd newcnt) :
    Reaches growOnce (fd + 1).toNat s.anfds.length newcnt ∧ newcnt ≤ intMax := by
  obtain ⟨n, hreaches, heq⟩ := growCount_reaches (fd + 1).toNat s.anfds.length
  rw [h.2] at heq
  split at heq
  · cases heq
  · rename_i hint
    cases heq
    exact ⟨hreaches, Nat.le_of_not_lt hint⟩

/-- **Growth**: beyond the table, a size is computed without overflow exactly when the descriptor is
one of the largest table. -/
theorem growsTo_iff (hs : Sized s) (hfd : s.maxEvents ≤ fd) :
    (∃ newcnt, s.GrowsTo fd newcnt) ↔ fd < largestTable := by
  obtain ⟨k, hk, -⟩ := hs
  have hmax : s.maxEvents = s.anfds.length := rfl
  obtain ⟨newcnt, hreaches, heq⟩ := growCount_reaches (fd + 1).toNat s.anfds.length
  have hneed : growOnce^[k] initEvents < (fd + 1).toNat := by omega
  rw [hk] at hreaches
  obtain ⟨n, hn⟩ := hreaches.of_start
  -- the loop goes beyond `INT_MAX` only when the last table is too small
  have hbound : newcnt ≤ intMax ↔ (fd + 1).toNat ≤ largestTable := by
    rw [hn, sized_le_largestTable, ← hn, ← iterate_largestTable]
    exact hreaches.le_iterate_iff growOnce_strictMono (lt_growOnce _) hneed
  have hlarge : (largestTable : Int) < intMax := by decide
  constructor
  · rintro ⟨n', hgrows⟩
    obtain ⟨-, hint⟩ := hgrows.reaches
    have hsize := hgrows.2
    rw [heq] at hsize
    split at hsize
    · cases hsize
    · cases hsize
      have hle := hbound.mp hint
      omega
  · intro hlt
    refine ⟨newcnt, by omega, ?_⟩
    rw [heq, if_neg (Nat.not_lt.mpr (hbound.mpr (by omega)))]

/-! ## Calls -/

/-- A call of one of the functions that index the table, with what the kernel has registered when
it is made. -/
inductive TableCall where
  | ctl (c : CtlCall)
  | modEvOnly (ev : Event) (epoll : Epoll)
  | processEvent (fd : Int) (events : Mask) (scripts : List (List CtlCall))

/-- `event_ctl` and `event_stop`. The other functions change the table through these. -/
def ctlStep (s : EventLoop) (c : CtlCall) : Except Fault EventLoop :=
  match EventLoop.eventCtl { s with epoll := c.epoll } c.op with
  | .error f => .error f
  | .ok (t, _) => .ok t

/-- An ADD behind the table: in finitely many iterations, a size that is large enough; then
`realloc` refuses, or the new table has the old entries and fresh ones behind them. -/
def TableGrows (s : EventLoop) (ev : Event) (reallocOk : Bool) : Prop :=
  ∃ iterations newcnt, s.GrowsTo ev.fd newcnt ∧
    newcnt = growOnce^[iterations + 1] s.anfds.length ∧ ev.fd < newcnt ∧
    (s.addEvent ev true reallocOk = .ok (s, false) ∨
      ∃ grown : EventLoop, s.addEvent ev true reallocOk = grown.addInside ev true ∧
        grown.maxEvents = newcnt ∧ (∀ fd, fd < s.maxEvents → grown.entry fd = s.entry fd) ∧
        ∀ fd, s.maxEvents ≤ fd → grown.entry fd = Anfd.fresh)

/-- The call reads and writes entries of the table only, and grows the table as it should. What a
callback does is blamed on the calls it makes. -/
def InsideTable (s : EventLoop) : TableCall → Prop
  | .ctl c =>
    EventLoop.eventCtl { s with epoll := c.epoll } c.op ≠ .error .outOfBounds ∧
      ∀ ev reallocOk, c.op = .add ev reallocOk → s.maxEvents ≤ ev.fd →
        TableGrows { s with epoll := c.epoll } ev reallocOk
  | .modEvOnly ev epoll => EventLoop.modEvOnly { s with epoll := epoll } ev ≠ .error .outOfBounds
  | .processEvent fd events scripts =>
    Sails.Base.processEvent s fd events scripts ≠ .error (.processEvent .outOfBounds)

/-- The descriptors that are safe to call with. -/
def InDomain (s : EventLoop) : TableCall → Prop
  | .ctl { op := .add ev _, .. } => 0 ≤ ev.fd ∧ ev.fd < largestTable
  | .ctl { op := .del ev, .. } => ev.fd ≠ s.maxEvents
  | .ctl { op := .mod ev _, .. } => ev.fd ≠ s.maxEvents
  | .ctl { op := .stop fd, .. } => 0 ≤ fd ∧ fd < s.maxEvents
  | .modEvOnly ev _ => ev.fd ≠ s.maxEvents
  | .processEvent fd _ _ => fd ≠ s.maxEvents

/-! ## Lengths -/

theorem Changes.length {a : Anfd} (h : Changes s t fd a) : t.anfds.length = s.anfds.length :=
  Int.ofNat.inj h.maxEvents

/-- What a call makes of the length of the table. -/
theorem eventCtl_length (h : s.eventCtl op = .ok (t, ok)) :
    t.anfds.length = s.anfds.length ∨
      ∃ ev reallocOk, op = .add ev reallocOk ∧ s.GrowsTo ev.fd t.anfds.length := by
  cases op with
  | add ev reallocOk =>
    have h : s.addEvent ev true reallocOk = .ok (t, ok) := h
    have hlength : ∀ {u : EventLoop}, u.addInside ev true = .ok (t, ok) →
        t.anfds.length = u.anfds.length := by
      intro u hu
      have hu : u.addInsideWith Epoll.add ev true = .ok (t, ok) := hu
      rcases (addInsideWith_cases hu).2 with ⟨-, hchanges⟩ | ⟨-, hchanges, -⟩
      · exact hchanges.length
      · exact hchanges.length
    obtain ⟨r, hroom, h⟩ := ok_of_bind h
    -- only the ADD of a descriptor behind the table makes room
    by_cases hfd : ev.fd < s.maxEvents
    · rw [makeRoom_inside hfd] at hroom
      cases hroom
      exact .inl (hlength h)
    · obtain ⟨newcnt, hgrows, hmade⟩ | ⟨-, hmade⟩ :=
        makeRoom_behind (Int.not_lt.mp hfd) reallocOk
      · cases hroom.symm.trans hmade
        cases reallocOk with
        | false =>
          cases h
          exact .inl rfl
        | true =>
          have hsize : t.anfds.length = newcnt := (hlength h).trans (length_grown hgrows.le.2)
          exact .inr ⟨ev, true, rfl, hsize ▸ hgrows⟩
      · cases hroom.symm.trans hmade
  | del ev =>
    rcases deleteEvent_cases h with ⟨rfl, -⟩ | ⟨first, rest, -, -, -, hchanges⟩
    · exact .inl rfl
    · exact .inl hchanges.length
  | mod ev reallocOk =>
    rcases modEvent_cases h with ⟨rfl, -⟩ | ⟨-, hchanges⟩
    · exact .inl rfl
    · exact .inl hchanges.length
  | stop fd =>
    rcases eventStop_cases h with ⟨rfl, -⟩ | ⟨-, hchanges⟩
    · exact .inl rfl
    · exact .inl hchanges.length

theorem sized_init (shutdownfd : Int) : Sized (EventLoop.init shutdownfd) := by
  refine ⟨0, List.length_replicate .., ?_⟩
  rw [EventLoop.init, List.length_replicate]
  decide

/-- **Step**: a table that grows without overflow has one of the sizes again. -/
theorem Sized.step {c : CtlCall} (hs : Sized s) (h : ctlStep s c = .ok t) : Sized t := by
  unfold ctlStep at h
  split at h
  · cases h
  · rename_i hctl
    cases h
    rcases eventCtl_length hctl with hsame | ⟨ev, reallocOk, -, hgrows⟩
    · unfold Sized
      rw [hsame]
      exact hs
    · obtain ⟨hreaches, hint⟩ := hgrows.reaches
      obtain ⟨k, hk, -⟩ := hs
      have hk : (EventLoop.anfds { s with epoll := c.epoll }).length = growOnce^[k] initEvents := hk
      rw [hk] at hreaches
      obtain ⟨n, hn⟩ := hreaches.of_start
      exact ⟨n, hn, hint⟩

/-! ## Faults of single calls -/

theorem EventChain.read_ne_outOfBounds (chain : EventChain) :
    chain.read ≠ .error .outOfBounds := by
  cases chain <;> exact fun h => by cases h

theorem refreshEvents_ne_outOfBounds (hfd : 0 ≤ fd ∧ fd < s.maxEvents) :
    s.refreshEvents fd ≠ .error .outOfBounds := by
  intro h
  have hload : s.load fd = .ok (s.entry fd) := if_pos hfd
  simp only [refreshEvents, hload, bind, Except.bind] at h
  split at h
  · rename_i hread
    cases h
    exact EventChain.read_ne_outOfBounds _ hread
  · cases h

theorem linkEvent_ne_outOfBounds (hfd : 0 ≤ ev.fd ∧ ev.fd < s.maxEvents) :
    s.linkEvent ev ≠ .error .outOfBounds := by
  intro h
  have hload : s.load ev.fd = .ok (s.entry ev.fd) := if_pos hfd
  simp only [linkEvent, hload, bind, Except.bind] at h
  split at h
  · split at h
    · split at h
      · rename_i hread
        cases h
        exact EventChain.read_ne_outOfBounds _ hread
      · split at h <;> cases h
    · cases h
  · cases h

theorem addInside_outOfBounds_iff :
    s.addInside ev true = .error .outOfBounds ↔ ¬ (0 ≤ ev.fd ∧ ev.fd < s.maxEvents) := by
  constructor
  · intro h hfd
    simp only [addInside, bind, Except.bind] at h
    cases hlink : s.linkEvent ev with
    | error f =>
      rw [hlink] at h
      cases h
      exact linkEvent_ne_outOfBounds hfd hlink
    | ok p =>
      obtain ⟨u, need⟩ := p
      obtain ⟨-, -, hchanges, -⟩ := linkEvent_cases hlink
      -- linking does not change the length of the table
      have hrefresh : ∀ v : EventLoop, v.refreshEvents ev.fd = .error .outOfBounds →
          v.anfds = u.anfds → False := by
        intro v hv hsame
        refine refreshEvents_ne_outOfBounds ?_ hv
        rw [EventLoop.maxEvents, hsame, hchanges.length]
        exact hfd
      -- the kernel is asked or not, and the mask is recomputed in both cases
      simp only [hlink] at h
      split at h
      · split at h
        · cases h
        · split at h
          · rename_i hfails
            cases h
            exact hrefresh _ hfails rfl
          · cases h
      · split at h
        · rename_i hfails
          cases h
          exact hrefresh _ hfails rfl
        · cases h
  · intro hfd
    rw [addInside, linkEvent_of_outside hfd]
    rfl

/-- The range test of `delete_event`, `mod_ev_only` and `mod_event`: it lets one descriptor too many
through. -/
theorem guarded_outOfBounds_iff {r : EventLoop × Bool}
    {body : Anfd → Except Fault (EventLoop × Bool)}
    (hbody : 0 ≤ fd ∧ fd < s.maxEvents → body (s.entry fd) ≠ .error .outOfBounds) :
    (if fd < 0 ∨ fd > s.maxEvents then .ok r else s.load fd >>= body) = .error .outOfBounds ↔
      fd = s.maxEvents := by
  have hmax : 0 ≤ s.maxEvents := Int.natCast_nonneg _
  by_cases hrange : fd < 0 ∨ fd > s.maxEvents
  · rw [if_pos hrange]
    exact ⟨fun h => (by cases h), fun h => (by omega)⟩
  · rw [if_neg hrange]
    -- what the test lets through is inside the table, but for `max_events`
    by_cases heq : fd = s.maxEvents
    · have hload : s.load fd = .error .outOfBounds := if_neg (by omega)
      rw [hload]
      exact ⟨fun _ => heq, fun _ => rfl⟩
    · have hfd : 0 ≤ fd ∧ fd < s.maxEvents := by omega
      have hload : s.load fd = .ok (s.entry fd) := if_pos hfd
      rw [hload]
      exact ⟨fun h => absurd h (hbody hfd), fun h => absurd h heq⟩

theorem deleteEvent_outOfBounds_iff :
    s.deleteEvent ev = .error .outOfBounds ↔ ev.fd = s.maxEvents := by
  refine guarded_outOfBounds_iff fun _ h => ?_
  simp only [bind, Except.bind] at h
  split at h
  · split at h
    · cases h
    · split at h
      · rename_i hread
        cases h
        exact EventChain.read_ne_outOfBounds _ hread
      · split at h <;> cases h
  · cases h

theorem modEvOnly_outOfBounds_iff :
    s.modEvOnly ev = .error .outOfBounds ↔ ev.fd = s.maxEvents := by
  refine guarded_outOfBounds_iff fun _ h => ?_
  split at h
  · split at h <;> cases h
  · cases h

theorem modEvent_outOfBounds_iff :
    s.modEvent ev reallocOk = .error .outOfBounds ↔ ev.fd = s.maxEvents := by
  refine guarded_outOfBounds_iff fun hfd h => ?_
  simp only [bind, Except.bind] at h
  split at h
  · split at h
    · rename_i hread
      cases h
      exact EventChain.read_ne_outOfBounds _ hread
    -- the ADD of the MOD is for a descriptor inside the table
    · simp only [emptied_addEvent hfd reallocOk, if_true] at h
      have hsame := modEvOnly_outOfBounds_iff.mp h
      rw [maxEvents_store] at hsame
      omega
  · cases h

theorem eventStop_outOfBounds_iff :
    s.eventStop fd = .error .outOfBounds ↔ ¬ (0 ≤ fd ∧ fd < s.maxEvents) := by
  by_cases hfd : 0 ≤ fd ∧ fd < s.maxEvents
  · have hload : s.load fd = .ok (s.entry fd) := if_pos hfd
    refine ⟨fun h => ?_, fun h => absurd hfd h⟩
    simp only [eventStop, hload, bind, Except.bind] at h
    split at h
    · split at h
      · rename_i hread
        cases h
        exact absurd hread (EventChain.read_ne_outOfBounds _)
      · cases h
    · cases h
  · have hload : s.load fd = .error .outOfBounds := if_neg hfd
    refine ⟨fun _ => hfd, fun _ => ?_⟩
    rw [eventStop, hload]
    rfl

/-! ## `process_event` -/

/-- Under the calls of a callback the table only grows. -/
theorem script_inside {s t : NodeLoop} {script : List CtlCall}
    (hfd : 0 ≤ fd ∧ fd < s.loop.maxEvents) (hrun : run (nodeStep fd) s script = .ok t) :
    0 ≤ fd ∧ fd < t.loop.maxEvents := by
  refine run_invariant' (I := fun s : NodeLoop => 0 ≤ fd ∧ fd < s.loop.maxEvents)
    (fun s c u hs hstep => ?_) hfd hrun
  obtain ⟨⟨ok, hctl⟩, -⟩ := nodeStep_ok hstep
  have hmax : s.loop.maxEvents ≤ u.loop.maxEvents := (eventCtl_frame hctl).1
  omega

/-- An iteration has not indexed outside the table, and the descriptor is inside it still. -/
def StaysInside (fd : Int) : Except DispatchFault Dispatch → Prop
  | .error e => e ≠ .processEvent .outOfBounds
  | .ok d => 0 ≤ fd ∧ fd < d.state.loop.maxEvents

theorem advance_inside {d : Dispatch} (hfd : 0 ≤ fd ∧ fd < d.state.loop.maxEvents) (node : Nat) :
    StaysInside fd (d.advance fd node) := by
  rcases advance_cases hfd node with ⟨-, -, hstrays⟩ | ⟨next, hok, -⟩
  · rw [hstrays]
    exact fun h => by cases h
  · rw [hok]
    exact hfd

theorem dispatchStep_inside {d : Dispatch} (hfd : 0 ≤ fd ∧ fd < d.state.loop.maxEvents)
    (events : Mask) (script : List CtlCall) :
    StaysInside fd (dispatchStep fd events d script) := by
  cases hcursor : d.cursor with
  | none =>
    rw [dispatchStep_left hcursor]
    exact hfd
  | some node =>
    cases hread : d.state.chain.read node with
    | none =>
      simp only [dispatchStep, hcursor, hread]
      exact fun h => by cases h
    | some e =>
      rcases dispatchStep_cases hcursor hread script with
        ⟨-, hstep⟩ | ⟨f, -, hstep⟩ | ⟨t, -, hrun, hstep⟩ | ⟨-, -, hstep⟩ <;> rw [hstep]
      · exact hfd
      · exact fun h => by cases h
      · exact advance_inside (d := d.returned fd e t) (script_inside hfd hrun) node
      · exact advance_inside hfd node

theorem processEvent_outOfBounds_iff (events : Mask) (scripts : List (List CtlCall)) :
    processEvent s fd events scripts = .error (.processEvent .outOfBounds) ↔ fd = s.maxEvents := by
  have hmax : 0 ≤ s.maxEvents := Int.natCast_nonneg _
  by_cases hrange : fd < 0 ∨ fd > s.maxEvents
  · rw [processEvent, dispatchStart, if_pos hrange]
    dsimp only
    rw [run_left rfl]
    exact ⟨fun h => (by cases h), fun h => (by omega)⟩
  · by_cases heq : fd = s.maxEvents
    · have hload : s.load fd = .error .outOfBounds := if_neg (by omega)
      refine ⟨fun _ => heq, fun _ => ?_⟩
      simp only [processEvent, dispatchStart, if_neg hrange, hload]
    · refine ⟨fun h => ?_, fun h => absurd h heq⟩
      have hfd : 0 ≤ fd ∧ fd < s.maxEvents := by omega
      have hload : s.load fd = .ok (s.entry fd) := if_pos hfd
      -- the dispatch begins with the table as it is
      have hstart : ∃ d, dispatchStart s fd events = .ok d ∧ d.state.loop = s := by
        simp only [dispatchStart, if_neg hrange, hload]
        split
        · exact ⟨_, rfl, rfl⟩
        · split
          · exact ⟨_, rfl, rfl⟩
          · exact ⟨_, rfl, rfl⟩
      obtain ⟨d, hd, hloop⟩ := hstart
      simp only [processEvent, hd] at h
      -- and every iteration leaves the descriptor inside
      have havoids : ∀ e, run (dispatchStep fd events) d scripts = .error e →
          ¬ e = .processEvent .outOfBounds := by
        refine (run_avoids_iff_along (P := fun _ _ => True)
          (I := fun d : Dispatch => 0 ≤ fd ∧ fd < d.state.loop.maxEvents)
          (fun d script hd _ => ?_) (fun _ _ _ hnot => absurd trivial hnot) (by rwa [hloop])).mpr
          (along_of_forall (p := fun _ => True) fun _ _ => trivial)
        have hinside := dispatchStep_inside hd events script
        exact ⟨fun e he => by rwa [he] at hinside, fun d' hd' => by rwa [hd'] at hinside⟩
      exact absurd rfl (havoids _ h)

/-! ## The claim -/

/-- **Growth of a reachable table**, for the descriptors behind it that an `int` can count up to. -/
theorem tableGrows (hs : Sized s) (hge : s.maxEvents ≤ ev.fd) (hlt : ev.fd < largestTable) :
    TableGrows s ev reallocOk := by
  obtain ⟨newcnt, hgrows⟩ := (growsTo_iff hs hge).mpr hlt
  obtain ⟨⟨k, hk, -, -⟩, -⟩ := hgrows.reaches
  refine ⟨k, newcnt, hgrows, hk, hgrows.le.1, ?_⟩
  obtain ⟨newcnt', hgrows', hroom⟩ | ⟨hnot, -⟩ := makeRoom_behind hge reallocOk
  · obtain rfl : newcnt' = newcnt := Except.ok.inj (hgrows'.2.symm.trans hgrows.2)
    -- `realloc` refuses, or the new entries are fresh
    cases reallocOk with
    | false =>
      left
      rw [addEvent, hroom]
      rfl
    | true =>
      right
      have hentry := entry_grown s newcnt'
      refine ⟨s.grown newcnt', ?_, congrArg Nat.cast (length_grown hgrows.le.2),
        fun fd _ => hentry fd, fun fd hfd => ?_⟩
      · rw [addEvent, hroom]
        rfl
      · have hmax : s.maxEvents = s.anfds.length := rfl
        rw [hentry, EventLoop.entry, List.getD_eq_getElem?_getD, List.getElem?_eq_none (by omega)]
        split <;> rfl
  · exact absurd hgrows (hnot newcnt)

theorem Sized.le_largestTable (hs : Sized s) : s.maxEvents ≤ largestTable := by
  obtain ⟨k, hk, hint⟩ := hs
  have hmax : s.maxEvents = s.anfds.length := rfl
  rw [hk] at hint
  have hle := sized_le_largestTable.mp hint
  omega

theorem addEvent_inside_iff (hs : Sized s) :
    (s.addEvent ev true reallocOk ≠ .error .outOfBounds ∧
      (s.maxEvents ≤ ev.fd → TableGrows s ev reallocOk)) ↔ 0 ≤ ev.fd ∧ ev.fd < largestTable := by
  have hpos : 0 ≤ s.maxEvents := Int.natCast_nonneg _
  constructor
  · rintro ⟨hin, hgrows⟩
    constructor
    -- a negative descriptor passes the test of `add_event`
    · by_contra hneg
      refine hin ?_
      rw [addEvent_inside (by omega)]
      exact addInside_outOfBounds_iff.mpr (by omega)
    -- no size is computed for what the largest table does not hold
    · by_contra hlarge
      have hge : s.maxEvents ≤ ev.fd := Int.le_trans hs.le_largestTable (Int.not_lt.mp hlarge)
      obtain ⟨_, newcnt, hsize, -⟩ := hgrows hge
      exact hlarge ((growsTo_iff hs hge).mp ⟨newcnt, hsize⟩)
  · rintro ⟨hfd, hlt⟩
    refine ⟨fun hout => ?_, fun hge => tableGrows hs hge hlt⟩
    by_cases hge : s.maxEvents ≤ ev.fd
    · have hgrows : TableGrows s ev reallocOk := tableGrows hs hge hlt
      obtain ⟨-, newcnt, -, -, hnewcnt, hrefused | ⟨grown, hadd, hmax, -⟩⟩ := hgrows
      · rw [hrefused] at hout
        cases hout
      · rw [hadd] at hout
        exact addInside_outOfBounds_iff.mp hout ⟨hfd, by omega⟩
    · rw [addEvent_inside (Int.not_le.mp hge)] at hout
      exact addInside_outOfBounds_iff.mp hout ⟨hfd, by omega⟩

/-- **The table is indexed inside its bounds**, and grown as it should be, in every reachable state,
by exactly these calls. -/
theorem table_access_iff (shutdownfd : Int) {calls : List CtlCall} {s : EventLoop}
    (hrun : run ctlStep (EventLoop.init shutdownfd) calls = .ok s) (call : TableCall) :
    InsideTable s call ↔ InDomain s call := by
  have hs : Sized s := run_invariant' (fun s c t hs h => hs.step h) (sized_init shutdownfd) hrun
  cases call with
  | ctl c =>
    obtain ⟨op, epoll⟩ := c
    -- only an ADD has to grow anything
    have hgrows : ∀ {p : Prop}, (∀ ev reallocOk, op ≠ .add ev reallocOk) →
        (p ∧ (∀ ev reallocOk, op = .add ev reallocOk → s.maxEvents ≤ ev.fd →
          TableGrows { s with epoll := epoll } ev reallocOk) ↔ p) := by
      intro p hop
      exact and_iff_left fun ev reallocOk heq => absurd heq (hop ev reallocOk)
    cases op with
    | add ev reallocOk =>
      refine Iff.trans (and_congr_right fun _ => ?_)
        (@addEvent_inside_iff { s with epoll := epoll } ev reallocOk hs)
      constructor
      · exact fun h => h ev reallocOk rfl
      · intro h ev' reallocOk' heq
        cases heq
        exact h
    | del ev =>
      exact (hgrows fun _ _ h => (by cases h)).trans (not_congr deleteEvent_outOfBounds_iff)
    | mod ev reallocOk =>
      exact (hgrows fun _ _ h => (by cases h)).trans (not_congr modEvent_outOfBounds_iff)
    | stop fd =>
      exact (hgrows fun _ _ h => (by cases h)).trans
        ((not_congr eventStop_outOfBounds_iff).trans not_not)
  | modEvOnly ev epoll => exact not_congr modEvOnly_outOfBounds_iff
  | processEvent fd events scripts => exact not_congr (processEvent_outOfBounds_iff events scripts)

/-- The first descriptor behind the table of a new loop: an ADD grows the table. -/
theorem table_access_iff_grows : InsideTable (EventLoop.init 3)
    (.ctl { op := .add (plainEvent 1000 eventRead) true, epoll := fun _ => none }) :=
  (table_access_iff 3 (show run ctlStep (EventLoop.init 3) [] = .ok (EventLoop.init 3) from rfl)
    _).mpr ⟨by decide, by decide⟩

/-- For the same descriptor, `delete_event` reads the entry behind the table. -/
theorem deleteEvent_reads_behind :
    EventLoop.eventCtl (EventLoop.init 3) (.del (plainEvent 1000 eventRead)) =
        .error .outOfBounds ∧
      ¬ InsideTable (EventLoop.init 3)
        (.ctl { op := .del (plainEvent 1000 eventRead), epoll := fun _ => none }) :=
  ⟨deleteEvent_outOfBounds_iff.mpr (maxEvents_init 3).symm,
    fun h => h.1 (deleteEvent_outOfBounds_iff.mpr (maxEvents_init 3).symm)⟩

end Sails.Base
