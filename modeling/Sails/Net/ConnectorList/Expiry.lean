import Sails.Net.ConnectorList.History

/-!
# Expired connections

`checkTimeout` reads the timeout list only, and finds the connectors through the slots. In every
state a run reaches the entries of that list are those the occupied slots keep, one for each, so
the loop visits each slot whose key has come, once and in the order of the keys.

- `listStep_linked`: what the visits rest on, kept by every call that succeeded
- `visits`: the loop with a log of the connectors it looks at
- `Reports`, `checkTimeout_reports`: which ones it times out
-/

namespace Sails.Net

open TransitionRun

namespace ConnectorList

variable {l : ConnectorList} {connectors connectors' : Connectors}
  {callback : Connectors → ConnectorPtr → Connectors} {slot it : Nat}

/-! ## Entries -/

/-- The slot stands in the timeout list under the key. -/
def StandsUnder (l : ConnectorList) (slot : Nat) (key : Int) : Prop :=
  ∃ e ∈ l.tl.entries, e.value = slot ∧ e.key = key

theorem Linked.exists_entry (h : l.Linked) (hslot : (l.first slot).isSome) :
    ∃ e ∈ l.tl.entries, e.value = slot := by
  obtain ⟨conn, it, -, hd⟩ := exists_keeps hslot
  obtain ⟨e, he, -, hvalue⟩ := (h it slot).mpr ⟨conn, hd⟩
  exact ⟨e, he, hvalue⟩

theorem Linked.occupied (h : l.Linked) {e : MultimapEntry Int Nat} (he : e ∈ l.tl.entries) :
    (l.first e.value).isSome :=
  isSome_first_of_keeps ((h e.iter e.value).mp ⟨e, he, rfl, rfl⟩)

/-- A slot has one entry. -/
theorem Linked.entry_unique (h : l.Linked) {a b : MultimapEntry Int Nat} (ha : a ∈ l.tl.entries)
    (hb : b ∈ l.tl.entries) (hvalue : a.value = b.value) : a = b := by
  obtain ⟨conn, hconn⟩ := (h a.iter a.value).mp ⟨a, ha, rfl, rfl⟩
  obtain ⟨conn', hconn'⟩ := (h b.iter b.value).mp ⟨b, hb, rfl, rfl⟩
  -- both iterators are the one the slot keeps
  rw [hvalue, hconn'] at hconn
  have hiter : b.iter = a.iter := congrArg ListData.second (Option.some.inj hconn)
  exact OrderedMultimap.eq_of_iter_eq ha hb hiter.symm

/-- The iterator an occupied slot keeps points to its entry. -/
theorem Linked.hasEntry (h : l.Linked) {conn : ConnectorPtr}
    (hd : l.vConn[slot]? = some ⟨some conn, it⟩) : HasEntry l.tl it slot :=
  (h it slot).mpr ⟨conn, hd⟩

/-- The entries after a slot's entry was erased. -/
theorem Linked.erased (h : l.Linked) {conn : ConnectorPtr} {tl : OrderedMultimap Int Nat}
    (hd : l.vConn[slot]? = some ⟨some conn, it⟩) (herase : l.tl.erase it = .ok tl) (it' s : Nat) :
    HasEntry tl it' s ↔ s ≠ slot ∧ l.Keeps it' s := by
  obtain ⟨tl', herase', htl⟩ := Linked.erase h (h.hasEntry hd)
  rw [herase] at herase'
  cases herase'
  exact htl it' s

theorem init_linked (size : Nat) (iIndex : UInt32) (now : Int) : (init size iIndex now).Linked := by
  intro it slot
  simp [HasEntry, Keeps, init, List.getElem?_replicate]

end ConnectorList

open ConnectorList

variable {s t : ListState} {op : ListOp}

/-- **Step**: a call that succeeded leaves the entries with the slots that keep them. -/
theorem listStep_linked (h : s.list.Linked) (hok : listStep s op = .ok t) : t.list.Linked := by
  cases listStep_cases hok with
  | getUniqId hfree hpos hle => exact h
  | add huid hmagic hle hempty =>
    refine linked_store (l := s.list) hle rfl fun it slot => ?_
    simpa only [Option.isSome_some, true_and] using Linked.insert h hempty _ it slot
  | keep hmagic hle hd hearly => exact h
  | refresh hmagic hle hd hlate herase =>
    -- the entry goes away and a new one comes under the new key
    refine linked_store (l := s.list) hle rfl fun it slot => ?_
    refine (hasEntry_insert _ _ it slot).trans ?_
    rw [h.erased hd herase]
    simp only [Option.isSome_some, true_and]
  | del hmagic hle hd herase =>
    refine linked_store (l := s.list) hle rfl fun it slot => ?_
    refine (h.erased hd herase it slot).trans ?_
    simp only [Option.isSome_none, Bool.false_eq_true, false_and, and_false, false_or]
  | checkTimeout => exact h
  | assign => exact h

/-- **Run**: in every state a run reaches. -/
theorem listRun_linked (size : Nat) (iIndex : UInt32) (now : Int) (connectors : Connectors)
    (ops : List ListOp)
    (hrun : run listStep (ListState.init size iIndex now connectors) ops = .ok t) :
    t.list.Linked :=
  run_invariant' (I := fun s : ListState => s.list.Linked)
    (fun _ _ _ h hok => listStep_linked h hok) (init_linked size iIndex now) hrun

/-! ## The loop with a log -/

/-- The loop of `checkTimeout` looks at a connector. -/
structure TimeoutVisit where
  slot : Nat
  key : Int
  conn : ConnectorPtr
  /-- the connectors when it does -/
  memory : Connectors

/-- Whether `set_timeout` is called. -/
def TimeoutVisit.called (v : TimeoutVisit) : Bool := decide ((v.memory v.conn).listenFd ≠ -1)

namespace ConnectorList

variable {l : ConnectorList} {connectors connectors' : Connectors}
  {callback : Connectors → ConnectorPtr → Connectors}

/-- `set_timeout`, called through the list. -/
def setTimeout (callback : Connectors → ConnectorPtr → Connectors) (connectors : Connectors)
    (conn : ConnectorPtr) : Connectors :=
  let connectors' := connectors.set conn (connectors conn).setIsTimeout
  if (connectors conn).timeoutCB then callback connectors' conn else connectors'

/-- The visit a round of the loop makes. -/
def visitOf (l : ConnectorList) (connectors : Connectors) (e : MultimapEntry Int Nat) :
    List TimeoutVisit :=
  match l.first e.value with
  | none => []
  | some conn => [⟨e.value, e.key, conn, connectors⟩]

/-- `checkTimeout` with a log of its visits: the connectors it leaves, and the visits. -/
def visits (l : ConnectorList) (connectors : Connectors)
    (callback : Connectors → ConnectorPtr → Connectors) (iCurTime : Int) :
    Except Fault (Connectors × List TimeoutVisit) :=
  if iCurTime - l.lastTimeoutTime < 1 then .ok (connectors, [])
  else run (logged (l.timeoutEntry callback) l.visitOf) (connectors, []) (l.tl.upTo iCurTime)

/-- The loop is a run of its rounds. -/
theorem timeoutEntries_eq_run (es : List (MultimapEntry Int Nat)) :
    l.timeoutEntries callback connectors es = run (l.timeoutEntry callback) connectors es := by
  induction es generalizing connectors with
  | nil => rfl
  | cons e es ih =>
    cases hentry : l.timeoutEntry callback connectors e with
    | error fault => simp only [timeoutEntries, run, hentry, bind, Except.bind]
    | ok connectors₁ =>
      rw [run_cons_ok hentry, ← ih]
      simp only [timeoutEntries, hentry, bind, Except.bind]

/-- The log does not change the call. -/
theorem checkTimeout_of_visits {vs : List TimeoutVisit} {iCurTime : Int}
    (h : l.visits connectors callback iCurTime = .ok (connectors', vs)) :
    l.checkTimeout connectors callback iCurTime =
      .ok (if iCurTime - l.lastTimeoutTime < 1 then l else { l with lastTimeoutTime := iCurTime },
        connectors') := by
  unfold visits at h
  -- the guard on the time is the same in both
  unfold checkTimeout
  split
  · rename_i hearly
    rw [if_pos hearly] at h
    cases h
    rfl
  · rename_i hlate
    rw [if_neg hlate] at h
    simp only [timeoutEntries_eq_run, run_of_logged h, bind, Except.bind]

/-- The connectors after these visits: `set_timeout` is called as `called` says, and nothing else
happens to them. -/
def afterVisits (callback : Connectors → ConnectorPtr → Connectors) (connectors : Connectors)
    (vs : List TimeoutVisit) : Connectors :=
  vs.foldl (fun memory v => if v.called then setTimeout callback memory v.conn else memory)
    connectors

/-- What is wanted of the visits at a time: each occupied slot whose key has come, once, in the
order of the keys, and `set_timeout` unless the listening descriptor is -1. -/
structure Reports (l : ConnectorList) (connectors : Connectors)
    (callback : Connectors → ConnectorPtr → Connectors) (iCurTime : Int) (connectors' : Connectors)
    (vs : List TimeoutVisit) : Prop where
  /-- an occupied slot has one key, and no other slot has any -/
  one_key : ∀ slot, (∃! key, l.StandsUnder slot key) ↔ (l.first slot).isSome
  visited : ∀ slot key conn, (∃ v ∈ vs, v.slot = slot ∧ v.key = key ∧ v.conn = conn) ↔
    l.first slot = some conn ∧ l.StandsUnder slot key ∧ key ≤ iCurTime
  once : (vs.map TimeoutVisit.slot).Nodup
  in_order : vs.Pairwise fun v w => v.key ≤ w.key
  memory : ∀ before v after, vs = before ++ v :: after →
    v.memory = afterVisits callback connectors before
  effect : connectors' = afterVisits callback connectors vs

/-- One round of the loop. -/
theorem timeoutEntry_eq {e : MultimapEntry Int Nat} {conn : ConnectorPtr}
    (hfirst : l.first e.value = some conn) :
    l.timeoutEntry callback connectors e =
      .ok (afterVisits callback connectors [⟨e.value, e.key, conn, connectors⟩]) := by
  simp only [timeoutEntry, hfirst, afterVisits, List.foldl_cons, List.foldl_nil,
    TimeoutVisit.called, setTimeout]
  -- `set_timeout` is called unless the listening descriptor is -1
  by_cases hlisten : (connectors conn).listenFd = -1
  · simp [hlisten]
  · simp [hlisten]

variable (l connectors callback) in
/-- **Loop**: over entries whose slots are occupied, one visit an entry. -/
theorem run_timeoutEntry (es : List (MultimapEntry Int Nat))
    (hes : ∀ e ∈ es, (l.first e.value).isSome) (log : List TimeoutVisit) :
    ∃ vs, run (logged (l.timeoutEntry callback) l.visitOf) (connectors, log) es =
        .ok (afterVisits callback connectors vs, log ++ vs) ∧
      vs.map (fun v => (v.slot, v.key)) = es.map (fun e => (e.value, e.key)) ∧
      (∀ v ∈ vs, l.first v.slot = some v.conn) ∧
      ∀ before v after, vs = before ++ v :: after →
        v.memory = afterVisits callback connectors before := by
  induction es generalizing connectors log with
  | nil =>
    refine ⟨[], by rw [List.append_nil]; rfl, rfl, fun v hv => absurd hv List.not_mem_nil, ?_⟩
    intro before v after hvs
    cases before <;> cases hvs
  | cons e es ih =>
    obtain ⟨conn, hfirst⟩ := Option.isSome_iff_exists.mp (hes e (List.mem_cons_self ..))
    have hvisit : l.visitOf connectors e = [⟨e.value, e.key, conn, connectors⟩] := by
      simp only [visitOf, hfirst]
    -- the rounds that follow see the connectors this one has left
    obtain ⟨vs, hrun, hmap, hfirsts, hmemory⟩ :=
      ih (afterVisits callback connectors [⟨e.value, e.key, conn, connectors⟩])
        (fun e' he' => hes e' (List.mem_cons_of_mem _ he'))
        (log ++ [⟨e.value, e.key, conn, connectors⟩])
    refine ⟨⟨e.value, e.key, conn, connectors⟩ :: vs, ?_, ?_, ?_, ?_⟩
    · rw [run_cons_ok (logged_ok (timeoutEntry_eq hfirst)), hvisit, hrun, List.append_assoc]
      rfl
    · rw [List.map_cons, List.map_cons, hmap]
    · intro v hv
      rcases List.mem_cons.mp hv with rfl | hv
      · exact hfirst
      · exact hfirsts v hv
    · intro before v after hvs
      -- the visit is this one, or one of those that follow
      rcases List.cons_eq_append_iff.mp hvs with ⟨rfl, hcons⟩ | ⟨before', rfl, hcons⟩
      · cases hcons
        rfl
      · exact hmemory before' v after hcons

variable (connectors callback) in
/-- The visits of a check that is not too early. -/
theorem Linked.visits_ok (h : l.Linked) {iCurTime : Int}
    (hlate : ¬ iCurTime - l.lastTimeoutTime < 1) :
    ∃ connectors' vs, l.visits connectors callback iCurTime = .ok (connectors', vs) ∧
      l.Reports connectors callback iCurTime connectors' vs := by
  have hmem : ∀ e ∈ l.tl.upTo iCurTime, e ∈ l.tl.entries :=
    fun e he => (OrderedMultimap.mem_upTo.mp he).1
  have hsub : (l.tl.upTo iCurTime).Sublist l.tl.entries := List.takeWhile_sublist _
  obtain ⟨vs, hrun, hmap, hfirsts, hmemory⟩ := run_timeoutEntry l connectors callback
    (l.tl.upTo iCurTime) (fun e he => h.occupied (hmem e he)) []
  refine ⟨_, vs, (if_neg hlate).trans hrun, ?_⟩
  -- the visits are the entries that `upTo` finds, slot by slot and key by key
  have hvisited : ∀ slot key, (∃ v ∈ vs, v.slot = slot ∧ v.key = key) ↔
      l.StandsUnder slot key ∧ key ≤ iCurTime := by
    intro slot key
    have hpair : (slot, key) ∈ vs.map (fun v => (v.slot, v.key)) ↔
        (slot, key) ∈ (l.tl.upTo iCurTime).map (fun e => (e.value, e.key)) := by rw [hmap]
    simp only [List.mem_map, Prod.mk.injEq, OrderedMultimap.mem_upTo] at hpair
    rw [hpair]
    constructor
    · rintro ⟨e, ⟨he, hle⟩, rfl, rfl⟩
      exact ⟨⟨e, he, rfl, rfl⟩, hle⟩
    · rintro ⟨⟨e, he, rfl, rfl⟩, hle⟩
      exact ⟨e, ⟨he, hle⟩, rfl, rfl⟩
  refine
    { one_key := ?_
      visited := ?_
      once := ?_
      in_order := ?_
      memory := hmemory
      effect := rfl }
  · intro slot
    constructor
    · rintro ⟨key, ⟨e, he, rfl, -⟩, -⟩
      exact h.occupied he
    · intro hslot
      obtain ⟨e, he, rfl⟩ := h.exists_entry hslot
      refine ⟨e.key, ⟨e, he, rfl, rfl⟩, ?_⟩
      rintro key ⟨e', he', hvalue, rfl⟩
      rw [h.entry_unique he' he hvalue]
  · intro slot key conn
    constructor
    · rintro ⟨v, hv, rfl, rfl, rfl⟩
      exact ⟨hfirsts v hv, (hvisited v.slot v.key).mp ⟨v, hv, rfl, rfl⟩⟩
    · rintro ⟨hfirst, hstands⟩
      obtain ⟨v, hv, rfl, rfl⟩ := (hvisited slot key).mpr hstands
      exact ⟨v, hv, rfl, rfl, Option.some.inj ((hfirsts v hv).symm.trans hfirst)⟩
  -- two visits of one slot would be two entries of it
  · have hslots : vs.map TimeoutVisit.slot = (l.tl.upTo iCurTime).map MultimapEntry.value := by
      have hfst := congrArg (List.map Prod.fst) hmap
      simpa only [List.map_map, Function.comp_def] using hfst
    rw [hslots]
    refine List.Nodup.map_on ?_ ((l.tl.iters_nodup.of_map _).sublist hsub)
    exact fun a ha b hb hvalue => h.entry_unique (hmem a ha) (hmem b hb) hvalue
  -- the timeout list is sorted, and the visits are a piece of it
  · have hkeys : vs.map TimeoutVisit.key = (l.tl.upTo iCurTime).map MultimapEntry.key := by
      have hsnd := congrArg (List.map Prod.snd) hmap
      simpa only [List.map_map, Function.comp_def] using hsnd
    have hsorted : (vs.map TimeoutVisit.key).Pairwise (· ≤ ·) := by
      rw [hkeys, List.pairwise_map]
      exact l.tl.sorted.sublist hsub
    exact List.pairwise_map.mp hsorted

end ConnectorList

/-- **Expired connections**: in every state a run reaches, for whatever callbacks that leave the
list alone, a check at least one second after the last one visits exactly the occupied slots whose
keys have come, each once and in the order of the keys, calls `set_timeout` for those whose
listening descriptor is not -1, and changes nothing of the list but the time of the check; an
earlier one does nothing. -/
theorem checkTimeout_reports (size : Nat) (iIndex : UInt32) (now : Int) (connectors : Connectors)
    (ops : List ListOp) (t : ListState)
    (hrun : run listStep (ListState.init size iIndex now connectors) ops = .ok t)
    (callback : Connectors → ConnectorPtr → Connectors) (iCurTime : Int) :
    ∃ connectors' vs, t.list.visits t.connectors callback iCurTime = .ok (connectors', vs) ∧
      (1 ≤ iCurTime - t.list.lastTimeoutTime →
        t.list.checkTimeout t.connectors callback iCurTime =
          .ok ({ t.list with lastTimeoutTime := iCurTime }, connectors') ∧
        t.list.Reports t.connectors callback iCurTime connectors' vs) ∧
      (iCurTime - t.list.lastTimeoutTime < 1 →
        t.list.checkTimeout t.connectors callback iCurTime = .ok (t.list, t.connectors) ∧
        vs = []) := by
  have hlinked := listRun_linked size iIndex now connectors ops hrun
  -- a check that is too early looks at nothing
  by_cases hearly : iCurTime - t.list.lastTimeoutTime < 1
  · have hvisits : t.list.visits t.connectors callback iCurTime = .ok (t.connectors, []) :=
      if_pos hearly
    refine ⟨_, _, hvisits, fun hlate => absurd hearly (by omega), fun _ => ⟨?_, rfl⟩⟩
    rw [checkTimeout_of_visits hvisits, if_pos hearly]
  · obtain ⟨connectors', vs, hvisits, hreports⟩ :=
      hlinked.visits_ok t.connectors callback hearly
    refine ⟨connectors', vs, hvisits, fun _ => ⟨?_, hreports⟩, fun h => absurd h hearly⟩
    rw [checkTimeout_of_visits hvisits, if_neg hearly]

/-- One connection with deadline 5 is found expired at 6. -/
theorem checkTimeout_reports_expired :
    ∃ t connectors' vs, run listStep
        (ListState.init 1 0 0 fun _ => { Connector.ofFd 7 0 0 (.zero 8) with id := 1 })
        [.getUniqId, .add 0 5] = .ok t ∧
      t.list.visits t.connectors (fun c _ => c) 6 = .ok (connectors', vs) ∧
      t.list.Reports t.connectors (fun c _ => c) 6 connectors' vs := by
  obtain ⟨connectors', vs, hvisits, hlate, -⟩ := checkTimeout_reports 1 0 0
    (fun _ => { Connector.ofFd 7 0 0 (.zero 8) with id := 1 }) [.getUniqId, .add 0 5] _ rfl
    (fun c _ => c) 6
  exact ⟨_, connectors', vs, rfl, hvisits, (hlate (by decide)).2⟩

end Sails.Net
