import Sails.Net.ConnectorList.Expiry

/-!
# Activity and deadlines

`refresh` is to move a connection's deadline to each new stamp. It returns early by comparing the
stamp with the connector's `lastRefreshTime`, a field no constructor sets and `add` does not
either; the key of the connection's entry is what it should be compared with.

- `greatestStamp`: the greatest stamp a connection was given since it was added
- `Extended`: the connection's key is that stamp, and no earlier check reports it
- `refresh_extends_iff`: the runs in which this is so
-/

namespace Sails.Net

open TransitionRun
open ConnectorList

/-! ## Stamps -/

/-- The greatest stamp given under an id after one more event. -/
def stampAfter (uid : UInt32) (greatest : Option Int) : ListEvent → Option Int
  | .added u _ stamp => if u = uid then some stamp else greatest
  | .refreshed u stamp => if u = uid then greatest.map (max · stamp) else greatest
  | .deleted u => if u = uid then none else greatest

/-- The greatest stamp given under an id since it was added, if it is held. -/
def greatestStamp (log : List ListEvent) (uid : UInt32) : Option Int :=
  log.foldl (stampAfter uid) none

@[simp] theorem greatestStamp_nil (uid : UInt32) : greatestStamp [] uid = none := rfl

@[simp] theorem greatestStamp_append (log : List ListEvent) (e : ListEvent) (uid : UInt32) :
    greatestStamp (log ++ [e]) uid = stampAfter uid (greatestStamp log uid) e := by
  rw [greatestStamp, List.foldl_append]
  rfl

/-- A stamp was given exactly under the ids held. -/
theorem isSome_greatestStamp (log : List ListEvent) (uid : UInt32) :
    (greatestStamp log uid).isSome = (heldConnector log uid).isSome := by
  induction log using List.reverseRecOn with
  | nil => rfl
  | append_singleton log e ih =>
    rw [greatestStamp_append, heldConnector_append]
    cases e with
    | added u conn stamp =>
      simp only [stampAfter, heldAfter]
      split
      · rfl
      · exact ih
    | refreshed u stamp =>
      simp only [stampAfter, heldAfter]
      split
      · rw [Option.isSome_map, ih]
      · exact ih
    | deleted u =>
      simp only [stampAfter, heldAfter]
      split
      · rfl
      · exact ih

/-! ## Keys -/

namespace ConnectorList

variable {l l' : ConnectorList} {slot it : Nat} {conn : ConnectorPtr} {stamp : Int}

/-- The keys after an entry was inserted. -/
theorem standsUnder_insert {tl : OrderedMultimap Int Nat} (htl : l'.tl = (tl.insert stamp slot).1)
    (s : Nat) (key : Int) :
    l'.StandsUnder s key ↔
      (s = slot ∧ key = stamp) ∨ ∃ e ∈ tl.entries, e.value = s ∧ e.key = key := by
  simp only [StandsUnder, htl, OrderedMultimap.mem_insert]
  -- the new entry, or one that was there
  constructor
  · rintro ⟨e, rfl | he, hvalue, hkey⟩
    · exact .inl ⟨hvalue.symm, hkey.symm⟩
    · exact .inr ⟨e, he, hvalue, hkey⟩
  · rintro (⟨rfl, rfl⟩ | ⟨e, he, hvalue, hkey⟩)
    · exact ⟨_, .inl rfl, rfl, rfl⟩
    · exact ⟨e, .inr he, hvalue, hkey⟩

/-- The keys after a slot's entry was erased. -/
theorem Linked.standsUnder_erase (h : l.Linked) {tl : OrderedMultimap Int Nat}
    (hd : l.vConn[slot]? = some ⟨some conn, it⟩) (herase : l.tl.erase it = .ok tl) (s : Nat)
    (key : Int) :
    (∃ e ∈ tl.entries, e.value = s ∧ e.key = key) ↔ s ≠ slot ∧ l.StandsUnder s key := by
  obtain ⟨e, he, hiter, hvalue⟩ := h.hasEntry hd
  obtain ⟨tl', herase', -, hmem⟩ := OrderedMultimap.erase_spec ⟨e, he, hiter⟩
  rw [herase] at herase'
  cases herase'
  constructor
  · rintro ⟨e', he', rfl, rfl⟩
    obtain ⟨hold, hne⟩ := (hmem e').mp he'
    refine ⟨?_, e', hold, rfl, rfl⟩
    -- the slot has this entry only, and it is gone
    intro hsame
    rw [h.entry_unique hold he (hsame.trans hvalue.symm)] at hne
    exact hne hiter
  · rintro ⟨hne, e', hold, rfl, rfl⟩
    refine ⟨e', (hmem e').mpr ⟨hold, ?_⟩, rfl, rfl⟩
    intro hsame
    exact hne ((OrderedMultimap.eq_of_iter_eq hold he (hsame.trans hiter.symm)) ▸ hvalue)

end ConnectorList

/-! ## Deadlines -/

variable {size : Nat} {s t : ListState} {log log' : List ListEvent} {op : ListOp} {uid : UInt32}

/-- The key of a connection is the greatest stamp it was given. -/
def Keyed (s : ListState) (log : List ListEvent) : Prop :=
  ∀ uid greatest, greatestStamp log uid = some greatest →
    ∀ key, s.list.StandsUnder (slotOf uid) key ↔ key = greatest

/-- What is wanted of the deadlines: a connection stands in the timeout list under the greatest
stamp it was given, and no check before that time visits it. -/
structure Extended (p : ListState × List ListEvent) : Prop where
  keyed : Keyed p.1 p.2
  unreported : ∀ uid greatest, greatestStamp p.2 uid = some greatest →
    ∀ callback iCurTime connectors' vs, iCurTime < greatest →
      p.1.list.visits p.1.connectors callback iCurTime = .ok (connectors', vs) →
      ∀ v ∈ vs, v.slot ≠ slotOf uid

/-- The stamps given under an id do not decrease. -/
def NonDecreasing (p : ListState × List ListEvent) : ListOp → Prop
  | .refresh uid stamp => ∀ greatest, greatestStamp p.2 uid = some greatest → greatest ≤ stamp
  | _ => True

/-- A new greatest stamp is above the connector's `lastRefreshTime`. -/
def AboveLastRefresh (p : ListState × List ListEvent) : ListOp → Prop
  | .refresh uid stamp => ∀ conn greatest, heldConnector p.2 uid = some conn →
      greatestStamp p.2 uid = some greatest → greatest < stamp →
      (p.1.connectors conn).lastRefreshTime < stamp
  | _ => True

/-- What holds along a run as long as the deadlines are extended. -/
structure ActivityInv (size : Nat) (p : ListState × List ListEvent) : Prop where
  held : HeldBySlot size p.1 p.2
  linked : p.1.list.Linked
  keyed : Keyed p.1 p.2

/-- A visit is made under a key of the slot. -/
theorem Keyed.unreported (h : Keyed s log) (hlinked : s.list.Linked) {greatest : Int}
    (hgreatest : greatestStamp log uid = some greatest)
    {callback : Connectors → ConnectorPtr → Connectors} {iCurTime : Int} {connectors' : Connectors}
    {vs : List TimeoutVisit} (hlt : iCurTime < greatest)
    (hvisits : s.list.visits s.connectors callback iCurTime = .ok (connectors', vs)) :
    ∀ v ∈ vs, v.slot ≠ slotOf uid := by
  intro v hv hslot
  by_cases hearly : iCurTime - s.list.lastTimeoutTime < 1
  · rw [visits, if_pos hearly] at hvisits
    cases hvisits
    cases hv
  · obtain ⟨connectors₁, vs₁, hvisits₁, hreports⟩ := hlinked.visits_ok _ _ hearly
    rw [hvisits] at hvisits₁
    cases hvisits₁
    -- its key is the greatest stamp, and is not due yet
    obtain ⟨-, hstands, hle⟩ := (hreports.visited v.slot v.key v.conn).mp ⟨v, hv, rfl, rfl, rfl⟩
    have hkey := (h uid greatest hgreatest v.key).mp (hslot ▸ hstands)
    omega

theorem ActivityInv.extended {p : ListState × List ListEvent} (h : ActivityInv size p) :
    Extended p where
  keyed := h.keyed
  unreported := fun _ _ hgreatest _ _ _ _ hlt hvisits =>
    h.keyed.unreported h.linked hgreatest hlt hvisits

/-- Ids held have different slots. -/
theorem HeldBySlot.slot_ne (h : HeldBySlot size s log) {uid u : UInt32} {greatest : Int}
    (huid : magicOf uid = s.list.iConnectionMagic) (hne : uid ≠ u)
    (hgreatest : greatestStamp log u = some greatest) : slotOf u ≠ slotOf uid := by
  have hheld := isSome_greatestStamp log u
  rw [hgreatest, h.held u] at hheld
  -- an id with a stamp is held, so it has the magic of the list
  by_cases hu : magicOf u = s.list.iConnectionMagic
  · exact fun hslot => hne (uid_ext (huid.trans hu.symm) hslot.symm)
  · rw [if_neg hu] at hheld
    cases hheld

/-- Nothing is said of the keys when none of them changes. -/
theorem Keyed.of_tl_eq (h : Keyed s log) (htl : t.list.tl = s.list.tl) : Keyed t log := by
  intro uid greatest hgreatest key
  simp only [StandsUnder, htl]
  exact h uid greatest hgreatest key

/-- A refresh that moves the entry. -/
theorem Keyed.refresh (h : Keyed s log) (hheld : HeldBySlot size s log) (hlinked : s.list.Linked)
    {conn : ConnectorPtr} {it : Nat} {stamp : Int} {tl : OrderedMultimap Int Nat}
    (hmagic : magicOf uid = s.list.iConnectionMagic)
    (hd : s.list.vConn[slotOf uid]? = some ⟨some conn, it⟩) (herase : s.list.tl.erase it = .ok tl)
    (hstamp : ∀ greatest, greatestStamp log uid = some greatest → greatest ≤ stamp)
    (htl : t.list.tl = (tl.insert stamp (slotOf uid)).1) :
    Keyed t (log ++ [.refreshed uid stamp]) := by
  intro u greatest hgreatest key
  rw [standsUnder_insert htl, hlinked.standsUnder_erase hd herase]
  rw [greatestStamp_append] at hgreatest
  simp only [stampAfter] at hgreatest
  by_cases hu : uid = u
  · subst hu
    rw [if_pos rfl] at hgreatest
    obtain ⟨old, hold, rfl⟩ := Option.map_eq_some_iff.mp hgreatest
    -- the stamp is the greatest one now, and the only key
    rw [max_eq_right (hstamp old hold)]
    simp
  · rw [if_neg hu] at hgreatest
    have hne := hheld.slot_ne hmagic hu hgreatest
    simp only [hne, false_and, false_or, ne_eq, not_false_eq_true, true_and]
    exact h u greatest hgreatest key

/-- A refresh that comes too early keeps the keys the greatest stamps only when the stamp is no
new one. -/
theorem Keyed.keep_iff (h : Keyed s log) {stamp : Int} (hlinked : s.list.Linked)
    (hoccupied : (s.list.first (slotOf uid)).isSome) :
    Keyed s (log ++ [.refreshed uid stamp]) ↔
      ∀ greatest, greatestStamp log uid = some greatest → stamp ≤ greatest := by
  constructor
  · intro hkeyed greatest hgreatest
    obtain ⟨e, he, hvalue⟩ := hlinked.exists_entry hoccupied
    have hold := (h uid greatest hgreatest e.key).mp ⟨e, he, hvalue, rfl⟩
    have hnew := (hkeyed uid (max greatest stamp) (by simp [stampAfter, hgreatest]) e.key).mp
      ⟨e, he, hvalue, rfl⟩
    -- the key is both the old greatest stamp and the new one
    omega
  · intro hle u greatest hgreatest key
    rw [greatestStamp_append] at hgreatest
    simp only [stampAfter] at hgreatest
    by_cases hu : uid = u
    · subst hu
      rw [if_pos rfl] at hgreatest
      obtain ⟨old, hold, rfl⟩ := Option.map_eq_some_iff.mp hgreatest
      rw [max_eq_left (hle old hold)]
      exact h uid old hold key
    · rw [if_neg hu] at hgreatest
      exact h u greatest hgreatest key

/-- **Step**: as long as every new greatest stamp is above `lastRefreshTime` the keys are the
greatest stamps, and one that is not leaves the key behind. -/
theorem listStep_keyed (h : ActivityInv size (s, log)) (hop : NonDecreasing (s, log) op)
    (hok : listStep s op = .ok t) :
    Keyed t (log ++ listEvents s op) ↔ AboveLastRefresh (s, log) op := by
  obtain ⟨hheld, hlinked, hkeyed⟩ := h
  dsimp only at hheld hlinked hkeyed
  have hholds : ∀ {uid : UInt32} {conn : ConnectorPtr} {it : Nat},
      magicOf uid = s.list.iConnectionMagic → s.list.vConn[slotOf uid]? = some ⟨some conn, it⟩ →
      heldConnector log uid = some conn := by
    intro uid conn it hmagic hd
    rw [hheld.held uid, if_pos hmagic, first_of_vConn hd]
  cases listStep_cases hok with
  | getUniqId hfree hpos hle =>
    rw [listEvents, List.append_nil]
    exact iff_of_true (hkeyed.of_tl_eq rfl) trivial
  | @add conn stamp uid huid hmagic hle hempty =>
    refine iff_of_true ?_ trivial
    intro u greatest hgreatest key
    refine Iff.trans (standsUnder_insert (by rfl) (slotOf u) key) ?_
    rw [listEvents, huid, greatestStamp_append] at hgreatest
    simp only [stampAfter] at hgreatest
    split at hgreatest
    · rename_i hu
      subst hu
      cases hgreatest
      -- the slot was empty, so it had no entry
      have hnone : ¬ ∃ e ∈ s.list.tl.entries, e.value = slotOf uid ∧ e.key = key := by
        rintro ⟨e, he, hvalue, -⟩
        have hsome := hlinked.occupied he
        rw [hvalue, hempty] at hsome
        cases hsome
      simp only [hnone, or_false, true_and]
    · rename_i hu
      have hne := hheld.slot_ne hmagic hu hgreatest
      simp only [hne, false_and, false_or]
      exact hkeyed u greatest hgreatest key
  | keep hmagic hle hd hearly =>
    have hconn := hholds hmagic hd
    rw [listEvents, hkeyed.keep_iff hlinked (by rw [first_of_vConn hd]; rfl)]
    constructor
    · intro hno conn' greatest _ hgreatest hlt
      have hge := hno greatest hgreatest
      omega
    · intro habove greatest hgreatest
      -- a new greatest stamp would have been above `lastRefreshTime`
      by_contra hlt
      have hbelow := habove _ greatest hconn hgreatest (by omega)
      exact absurd hearly (not_le.mpr hbelow)
  | refresh hmagic hle hd hlate herase =>
    refine iff_of_true (hkeyed.refresh hheld hlinked hmagic hd herase hop rfl) ?_
    intro conn' greatest hconn' _ _
    have hsame := (hholds hmagic hd).symm.trans hconn'
    cases hsame
    exact hlate
  | del hmagic hle hd herase =>
    refine iff_of_true ?_ trivial
    intro u greatest hgreatest key
    rw [listEvents, greatestStamp_append] at hgreatest
    simp only [stampAfter] at hgreatest
    split at hgreatest
    · cases hgreatest
    · rename_i hu
      refine (hlinked.standsUnder_erase hd herase (slotOf u) key).trans ?_
      rw [and_iff_right (hheld.slot_ne hmagic hu hgreatest)]
      exact hkeyed u greatest hgreatest key
  | checkTimeout =>
    rw [listEvents, List.append_nil]
    exact iff_of_true (hkeyed.of_tl_eq rfl) trivial
  | assign =>
    rw [listEvents, List.append_nil]
    exact iff_of_true (hkeyed.of_tl_eq rfl) trivial

theorem activityInv_init (size : Nat) (iIndex : UInt32) (now : Int) (connectors : Connectors) :
    ActivityInv size (ListState.init size iIndex now connectors, []) where
  held := heldBySlot_init size iIndex now connectors
  linked := init_linked size iIndex now
  keyed := fun uid greatest hgreatest => by cases hgreatest

/-- **Activity and deadlines**: in every run in which no connection is refreshed with a stamp below
one it was given before, whatever the connectors hold and whoever changes them, every connection
stands under its greatest stamp in every state, so that no check before that time reports it,
exactly when every new greatest stamp is above the `lastRefreshTime` its connector has when
`refresh` is called with it. -/
theorem refresh_extends_iff (size : Nat) (iIndex : UInt32) (now : Int) (connectors : Connectors)
    (ops : List ListOp) (t : ListState) (log : List ListEvent)
    (hstamps : Along (logged listStep listEvents) NonDecreasing
      (ListState.init size iIndex now connectors, []) ops)
    (hrun : run (logged listStep listEvents) (ListState.init size iIndex now connectors, []) ops =
      .ok (t, log)) :
    Along (logged listStep listEvents) (fun p _ => Extended p)
        (ListState.init size iIndex now connectors, []) ops ∧ Extended (t, log) ↔
      Along (logged listStep listEvents) AboveLastRefresh
        (ListState.init size iIndex now connectors, []) ops := by
  refine always_iff_along (I := ActivityInv size) (fun p h => h.extended) ?_
    (activityInv_init size iIndex now connectors) hstamps hrun
  rintro ⟨s, log⟩ op ⟨t, log'⟩ h hop hstep
  obtain ⟨hok, hlog⟩ := logged_eq_ok hstep
  dsimp only at hok hlog
  subst hlog
  have hiff := listStep_keyed h hop hok
  constructor
  · intro habove
    exact ⟨listStep_heldBySlot h.held hok, listStep_linked h.linked hok, hiff.mpr habove⟩
  · intro hextended
    exact hiff.mp hextended.keyed

/-- A connector whose field was 0 is refreshed once. -/
theorem refresh_extends_iff_once :
    ∃ t log, run (logged listStep listEvents)
        (ListState.init 1 0 0 fun _ => { Connector.ofFd 7 0 0 (.zero 8) with id := 1 }, [])
        [.getUniqId, .add 0 5, .refresh 1 9] = .ok (t, log) ∧
      (Along (logged listStep listEvents) (fun p _ => Extended p)
          (ListState.init 1 0 0 fun _ => { Connector.ofFd 7 0 0 (.zero 8) with id := 1 }, [])
          [.getUniqId, .add 0 5, .refresh 1 9] ∧ Extended (t, log) ↔
        Along (logged listStep listEvents) AboveLastRefresh
          (ListState.init 1 0 0 fun _ => { Connector.ofFd 7 0 0 (.zero 8) with id := 1 }, [])
          [.getUniqId, .add 0 5, .refresh 1 9]) := by
  refine ⟨_, _, rfl, refresh_extends_iff 1 0 0
    (fun _ => { Connector.ofFd 7 0 0 (.zero 8) with id := 1 })
    [.getUniqId, .add 0 5, .refresh 1 9] _ _ ?_ rfl⟩
  refine .cons_ok trivial rfl (.cons_ok trivial rfl (.cons_ok ?_ rfl trivial))
  intro greatest hgreatest
  cases hgreatest
  decide

/-- A connector whose field was 10 is added with deadline 5 and refreshed with 9: its key stays 5,
and a check at 6 reports it. -/
theorem refresh_returns_early :
    ∃ t log connectors' vs, run (logged listStep listEvents)
        (ListState.init 1 0 0 fun _ => { Connector.ofFd 7 10 0 (.zero 8) with id := 1 }, [])
        [.getUniqId, .add 0 5, .refresh 1 9] = .ok (t, log) ∧
      greatestStamp log 1 = some 9 ∧ t.list.tl.entries.map MultimapEntry.key = [5] ∧
      t.list.visits t.connectors (fun c _ => c) 6 = .ok (connectors', vs) ∧
      vs.map TimeoutVisit.slot = [slotOf 1] ∧ ¬ Extended (t, log) := by
  refine ⟨_, _, _, _, rfl, rfl, rfl, rfl, rfl, ?_⟩
  intro hextended
  exact hextended.unreported 1 9 rfl (fun c _ => c) 6 _ _ (by decide) rfl _
    (List.mem_singleton_self _) rfl

end Sails.Net
