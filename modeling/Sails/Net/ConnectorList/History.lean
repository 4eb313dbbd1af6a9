import Sails.Library.RunLog
import Sails.Net.ConnectorSlots

/-!
# What a connector list was told

The calls that succeeded, in any list and under any ids: an assertion that fails ends the
program, so nothing is assumed of the callers. `ListEvent` is what a call tells the list about
the connections it holds.

- `getUniqId_eq_ok`, `add_eq_ok`, `refresh_eq_ok`, `del_eq_ok`: what a call that succeeded did
- `HeldBySlot`: an id is held exactly while its slot holds its connector
- `get_exact_iff`: which ids `get` answers for
-/

namespace Sails.Net

open TransitionRun

namespace ConnectorList

variable {l l' : ConnectorList} {connectors connectors' : Connectors} {conn : ConnectorPtr}
  {uid : UInt32} {stamp : Int} {it : Nat}

/-! ## Calls that succeeded -/

theorem getUniqId_eq_ok (hok : l.getUniqId = .ok (uid, l')) :
    ∃ slot rest, l.free = slot :: rest ∧ 0 < slot ∧ slot ≤ l.total ∧
      uid = l.iConnectionMagic ||| UInt32.ofNat slot ∧
      l' = { l with free := rest, freeSize := l.freeSize - 1 } := by
  cases hfree : l.free with
  | nil => simp [getUniqId, hfree] at hok
  | cons slot rest =>
    simp only [getUniqId, hfree] at hok
    split at hok
    · rename_i hrange
      cases hok
      exact ⟨slot, rest, rfl, hrange.1, hrange.2, rfl, rfl⟩
    · cases hok

theorem add_eq_ok (hok : l.add connectors conn stamp = .ok l') :
    magicOf (connectors conn).id = l.iConnectionMagic ∧ 0 < slotOf (connectors conn).id ∧
      slotOf (connectors conn).id ≤ l.total ∧ l.first (slotOf (connectors conn).id) = none ∧
      l' = ({ l with tl := (l.tl.insert stamp (slotOf (connectors conn).id)).1 } :
        ConnectorList).store (slotOf (connectors conn).id) ⟨some conn, l.tl.nextIter⟩ := by
  simp only [add] at hok
  split at hok
  · rename_i hguard
    obtain ⟨hmagic, hpos, hle, hempty⟩ := hguard
    refine ⟨hmagic, hpos, hle, hempty, ?_⟩
    cases hok
    rfl
  · cases hok

theorem occupant_eq_ok (hok : l.occupant uid = .ok (conn, it)) :
    magicOf uid = l.iConnectionMagic ∧ 0 < slotOf uid ∧ slotOf uid ≤ l.total ∧
      l.vConn[slotOf uid]? = some ⟨some conn, it⟩ := by
  simp only [occupant] at hok
  split at hok
  · rename_i hguard
    split at hok
    · rename_i hd
      cases hok
      exact ⟨hguard.1, hguard.2.1, hguard.2.2, hd⟩
    · cases hok
  · cases hok

/-- `refresh` either comes too early or moves the slot's entry. -/
theorem refresh_eq_ok (hok : l.refresh connectors uid stamp = .ok (l', connectors')) :
    ∃ conn it, l.occupant uid = .ok (conn, it) ∧
      (stamp ≤ (connectors conn).lastRefreshTime ∧ l' = l ∧ connectors' = connectors ∨
        (connectors conn).lastRefreshTime < stamp ∧ ∃ tl, l.tl.erase it = .ok tl ∧
          l' = ({ l with tl := (tl.insert stamp (slotOf uid)).1 } : ConnectorList).store
            (slotOf uid) ⟨some conn, tl.nextIter⟩ ∧
          connectors' = connectors.set conn ((connectors conn).setLastRefreshTime stamp)) := by
  obtain ⟨⟨conn, it⟩, hocc, hok⟩ := ok_of_bind hok
  refine ⟨conn, it, hocc, ?_⟩
  simp only at hok
  split at hok
  · rename_i hearly
    cases hok
    exact .inl ⟨by omega, rfl, rfl⟩
  · rename_i hlate
    -- the entry the slot keeps is erased, and a new one inserted
    obtain ⟨tl, herase, hok⟩ := ok_of_bind hok
    cases hok
    exact .inr ⟨by omega, tl, herase, rfl, rfl⟩

theorem del_eq_ok (hok : l.del uid = .ok l') :
    ∃ conn it tl, l.occupant uid = .ok (conn, it) ∧ l.tl.erase it = .ok tl ∧
      l' = ({ l with
        tl := tl
        free := l.free ++ [slotOf uid]
        freeSize := l.freeSize + 1 } : ConnectorList).store (slotOf uid) ⟨none, it⟩ := by
  obtain ⟨⟨conn, it⟩, hocc, hok⟩ := ok_of_bind hok
  obtain ⟨-, hpos, hle, hd⟩ := occupant_eq_ok hocc
  simp only [delSlot, if_pos (And.intro hpos hle), hd] at hok
  obtain ⟨tl, herase, hok⟩ := ok_of_bind hok
  cases hok
  exact ⟨conn, it, tl, hocc, herase, rfl⟩

theorem checkTimeout_eq_ok {callback : Connectors → ConnectorPtr → Connectors} {iCurTime : Int}
    (hok : l.checkTimeout connectors callback iCurTime = .ok (l', connectors')) :
    ∃ last, l' = { l with lastTimeoutTime := last } := by
  unfold checkTimeout at hok
  split at hok
  · cases hok
    exact ⟨l.lastTimeoutTime, rfl⟩
  · obtain ⟨connectors₁, -, hok⟩ := ok_of_bind hok
    cases hok
    exact ⟨iCurTime, rfl⟩

/-- The connector an occupied slot holds. -/
theorem first_of_vConn {slot : Nat} (hd : l.vConn[slot]? = some ⟨some conn, it⟩) :
    l.first slot = some conn := by
  rw [first, hd]
  rfl

end ConnectorList

/-! ## Steps -/

open ConnectorList

/-- What a call that succeeded did. -/
inductive Performed (s : ListState) : ListOp → ListState → Prop where
  | getUniqId {slot : Nat} {rest : List Nat} (hfree : s.list.free = slot :: rest)
      (hpos : 0 < slot) (hle : slot ≤ s.list.total) :
      Performed s .getUniqId
        { s with
          list := { s.list with free := rest, freeSize := s.list.freeSize - 1 }
          reserved := (s.list.iConnectionMagic ||| UInt32.ofNat slot) :: s.reserved }
  | add {conn : ConnectorPtr} {stamp : Int} {uid : UInt32} (huid : (s.connectors conn).id = uid)
      (hmagic : magicOf uid = s.list.iConnectionMagic) (hle : slotOf uid ≤ s.list.total)
      (hempty : s.list.first (slotOf uid) = none) :
      Performed s (.add conn stamp)
        { s with
          list := ({ s.list with tl := (s.list.tl.insert stamp (slotOf uid)).1 } :
            ConnectorList).store (slotOf uid) ⟨some conn, s.list.tl.nextIter⟩
          reserved := s.reserved.erase uid
          added := uid :: s.added }
  /-- `refresh` comes too early -/
  | keep {conn : ConnectorPtr} {it : Nat} {uid : UInt32} {stamp : Int}
      (hmagic : magicOf uid = s.list.iConnectionMagic) (hle : slotOf uid ≤ s.list.total)
      (hd : s.list.vConn[slotOf uid]? = some ⟨some conn, it⟩)
      (hearly : stamp ≤ (s.connectors conn).lastRefreshTime) :
      Performed s (.refresh uid stamp) s
  | refresh {conn : ConnectorPtr} {it : Nat} {uid : UInt32} {stamp : Int}
      {tl : OrderedMultimap Int Nat} (hmagic : magicOf uid = s.list.iConnectionMagic)
      (hle : slotOf uid ≤ s.list.total) (hd : s.list.vConn[slotOf uid]? = some ⟨some conn, it⟩)
      (hlate : (s.connectors conn).lastRefreshTime < stamp) (herase : s.list.tl.erase it = .ok tl) :
      Performed s (.refresh uid stamp)
        { s with
          list := ({ s.list with tl := (tl.insert stamp (slotOf uid)).1 } : ConnectorList).store
            (slotOf uid) ⟨some conn, tl.nextIter⟩
          connectors := s.connectors.set conn ((s.connectors conn).setLastRefreshTime stamp) }
  | del {conn : ConnectorPtr} {it : Nat} {uid : UInt32} {tl : OrderedMultimap Int Nat}
      (hmagic : magicOf uid = s.list.iConnectionMagic) (hle : slotOf uid ≤ s.list.total)
      (hd : s.list.vConn[slotOf uid]? = some ⟨some conn, it⟩)
      (herase : s.list.tl.erase it = .ok tl) :
      Performed s (.del uid)
        { s with
          list := ({ s.list with
            tl := tl
            free := s.list.free ++ [slotOf uid]
            freeSize := s.list.freeSize + 1 } : ConnectorList).store (slotOf uid) ⟨none, it⟩
          added := s.added.erase uid }
  | checkTimeout {callback : Connectors → ConnectorPtr → Connectors} {iCurTime last : Int}
      {connectors' : Connectors} :
      Performed s (.checkTimeout callback iCurTime)
        { s with list := { s.list with lastTimeoutTime := last }, connectors := connectors' }
  | assign {conn : ConnectorPtr} {c : Connector} :
      Performed s (.assign conn c) { s with connectors := s.connectors.set conn c }

/-- **Inversion**: everything a call that succeeds can do. -/
theorem listStep_cases {s t : ListState} {op : ListOp} (hok : listStep s op = .ok t) :
    Performed s op t := by
  cases op with
  | getUniqId =>
    obtain ⟨⟨uid, l'⟩, hget, hok⟩ := ok_of_bind hok
    cases hok
    obtain ⟨slot, rest, hfree, hpos, hle, rfl, rfl⟩ := getUniqId_eq_ok hget
    exact .getUniqId hfree hpos hle
  | add conn stamp =>
    obtain ⟨l', hadd, hok⟩ := ok_of_bind hok
    cases hok
    obtain ⟨hmagic, -, hle, hempty, rfl⟩ := add_eq_ok hadd
    exact .add rfl hmagic hle hempty
  | refresh uid stamp =>
    obtain ⟨⟨l', connectors'⟩, hrefresh, hok⟩ := ok_of_bind hok
    cases hok
    obtain ⟨conn, it, hocc, hcase⟩ := refresh_eq_ok hrefresh
    obtain ⟨hmagic, -, hle, hd⟩ := occupant_eq_ok hocc
    rcases hcase with ⟨hearly, rfl, rfl⟩ | ⟨hlate, tl, herase, rfl, rfl⟩
    · exact .keep hmagic hle hd hearly
    · exact .refresh hmagic hle hd hlate herase
  | del uid =>
    obtain ⟨l', hdel, hok⟩ := ok_of_bind hok
    cases hok
    obtain ⟨conn, it, tl, hocc, herase, rfl⟩ := del_eq_ok hdel
    obtain ⟨hmagic, -, hle, hd⟩ := occupant_eq_ok hocc
    exact .del hmagic hle hd herase
  | checkTimeout callback iCurTime =>
    obtain ⟨⟨l', connectors'⟩, hcheck, hok⟩ := ok_of_bind hok
    cases hok
    obtain ⟨last, rfl⟩ := checkTimeout_eq_ok hcheck
    exact .checkTimeout
  | assign conn c =>
    cases hok
    exact .assign

/-! ## Events -/

/-- What a call tells the list about the connections it holds. -/
inductive ListEvent where
  | added (uid : UInt32) (conn : ConnectorPtr) (stamp : Int)
  | refreshed (uid : UInt32) (stamp : Int)
  | deleted (uid : UInt32)
  deriving DecidableEq

/-- What a call tells the list. -/
def listEvents (s : ListState) : ListOp → List ListEvent
  | .add conn stamp => [.added (s.connectors conn).id conn stamp]
  | .refresh uid stamp => [.refreshed uid stamp]
  | .del uid => [.deleted uid]
  | .getUniqId | .checkTimeout .. | .assign .. => []

/-- What is held under an id after one more event. -/
def heldAfter (uid : UInt32) (held : Option ConnectorPtr) : ListEvent → Option ConnectorPtr
  | .added u conn _ => if u = uid then some conn else held
  | .refreshed .. => held
  | .deleted u => if u = uid then none else held

/-- The connector that was added under exactly this id and not deleted since. -/
def heldConnector (log : List ListEvent) (uid : UInt32) : Option ConnectorPtr :=
  log.foldl (heldAfter uid) none

@[simp] theorem heldConnector_nil (uid : UInt32) : heldConnector [] uid = none := rfl

@[simp] theorem heldConnector_append (log : List ListEvent) (e : ListEvent) (uid : UInt32) :
    heldConnector (log ++ [e]) uid = heldAfter uid (heldConnector log uid) e := by
  rw [heldConnector, List.foldl_append]
  rfl

/-! ## Ids and slots -/

variable {size : Nat} {s t : ListState} {log : List ListEvent} {op : ListOp} {uid : UInt32}

/-- The list of a run: its parameters, and an id held exactly while its slot holds its
connector. -/
structure HeldBySlot (size : Nat) (s : ListState) (log : List ListEvent) : Prop where
  total : s.list.total = size
  magic : slotOf s.list.iConnectionMagic = 0
  held : ∀ uid, heldConnector log uid =
    if magicOf uid = s.list.iConnectionMagic then s.list.first (slotOf uid) else none

theorem heldBySlot_init (size : Nat) (iIndex : UInt32) (now : Int) (connectors : Connectors) :
    HeldBySlot size (ListState.init size iIndex now connectors) [] where
  total := rfl
  magic := slotOf_magic _ _
  held := by
    intro uid
    have hempty : (ConnectorList.init size iIndex now).first (slotOf uid) = none := by
      simp only [first, ConnectorList.init, List.getElem?_replicate]
      split <;> rfl
    simp only [heldConnector_nil, ListState.init, hempty, ite_self]

/-- A list whose slots are as they were. -/
theorem HeldBySlot.of_first_eq (h : HeldBySlot size s log) (htotal : t.list.total = s.list.total)
    (hmagic : t.list.iConnectionMagic = s.list.iConnectionMagic)
    (hfirst : ∀ slot, t.list.first slot = s.list.first slot) : HeldBySlot size t log where
  total := htotal.trans h.total
  magic := hmagic ▸ h.magic
  held := by
    intro uid
    rw [h.held uid, hmagic, hfirst]

/-- A list in which the slot of an id changed hands. -/
theorem HeldBySlot.of_first_store (h : HeldBySlot size s log) {uid : UInt32}
    {o : Option ConnectorPtr} {e : ListEvent} (htotal : t.list.total = s.list.total)
    (hmagic : t.list.iConnectionMagic = s.list.iConnectionMagic)
    (huid : magicOf uid = s.list.iConnectionMagic)
    (hfirst : ∀ slot, t.list.first slot = if slotOf uid = slot then o else s.list.first slot)
    (he : ∀ u held, heldAfter u held e = if uid = u then o else held) :
    HeldBySlot size t (log ++ [e]) where
  total := htotal.trans h.total
  magic := hmagic ▸ h.magic
  held := by
    intro u
    rw [heldConnector_append, he, h.held u, hmagic, hfirst]
    -- the id of the call, or another one
    by_cases hu : uid = u
    · subst hu
      rw [if_pos rfl, if_pos huid, if_pos rfl]
    · rw [if_neg hu]
      by_cases hm : magicOf u = s.list.iConnectionMagic
      -- ids with one magic and different numbers have different slots
      · have hne : slotOf uid ≠ slotOf u := fun hslot => hu (uid_ext (huid.trans hm.symm) hslot)
        rw [if_pos hm, if_pos hm, if_neg hne]
      · rw [if_neg hm, if_neg hm]

/-- **Step**: a call that succeeded leaves the ids held and the slots in agreement. -/
theorem listStep_heldBySlot (h : HeldBySlot size s log) (hok : listStep s op = .ok t) :
    HeldBySlot size t (log ++ listEvents s op) := by
  -- a refresh is no news of what is held
  have hrefreshed : ∀ uid stamp, HeldBySlot size s (log ++ [.refreshed uid stamp]) := by
    intro uid stamp
    exact { h with held := fun u => (heldConnector_append log _ u).trans (h.held u) }
  cases listStep_cases hok with
  | getUniqId hfree hpos hle =>
    rw [listEvents, List.append_nil]
    exact h.of_first_eq rfl rfl fun slot => rfl
  | add huid hmagic hle hempty =>
    rw [listEvents, huid]
    exact h.of_first_store rfl rfl hmagic (fun slot => first_store hle _ slot) fun u held => rfl
  | keep hmagic hle hd hearly => exact hrefreshed _ _
  | refresh hmagic hle hd hlate herase =>
    refine (hrefreshed _ _).of_first_eq rfl rfl fun slot => (first_store hle _ slot).trans ?_
    split
    · rename_i hslot
      exact hslot ▸ (first_of_vConn hd).symm
    · rfl
  | del hmagic hle hd herase =>
    exact h.of_first_store rfl rfl hmagic (fun slot => first_store hle _ slot) fun u held => rfl
  | checkTimeout =>
    rw [listEvents, List.append_nil]
    exact h.of_first_eq rfl rfl fun slot => rfl
  | assign =>
    rw [listEvents, List.append_nil]
    exact h.of_first_eq rfl rfl fun slot => rfl

/-- **Run**: the ids held and the slots agree in every state a run reaches. -/
theorem listRun_heldBySlot (size : Nat) (iIndex : UInt32) (now : Int) (connectors : Connectors)
    (ops : List ListOp)
    (hrun : run (logged listStep listEvents) (ListState.init size iIndex now connectors, []) ops =
      .ok (t, log)) : HeldBySlot size t log := by
  refine run_invariant' (I := fun p => HeldBySlot size p.1 p.2) ?_
    (heldBySlot_init size iIndex now connectors) hrun
  rintro ⟨s, log⟩ op ⟨t, log'⟩ h hstep
  obtain ⟨hok, hlog⟩ := logged_eq_ok hstep
  dsimp only at hok hlog ⊢
  rw [hlog]
  exact listStep_heldBySlot h hok

/-! ## Looking ids up -/

/-- What `get` answers, when it stays inside the slot array. -/
theorem HeldBySlot.get_eq_iff (h : HeldBySlot size s log) (uid : UInt32) :
    s.list.get uid = .ok (heldConnector log uid) ↔
      ¬ (magicOf uid = s.list.iConnectionMagic ∧ size < slotOf uid) := by
  rw [h.held uid]
  unfold ConnectorList.get
  by_cases hmagic : magicOf uid = s.list.iConnectionMagic
  · simp only [hmagic, if_true, true_and, Nat.not_lt]
    have hlength : s.list.vConn.length = size + 1 := h.total ▸ s.list.length_vConn
    -- behind the array `get` faults, and the log has nothing under the id
    cases hd : s.list.vConn[slotOf uid]? with
    | none =>
      have hge := List.getElem?_eq_none_iff.mp hd
      constructor
      · intro heq
        cases heq
      · intro hle
        omega
    | some d =>
      have hlt := (List.getElem?_eq_some_iff.mp hd).1
      simp only [first, hd, Option.bind_some]
      exact iff_of_true trivial (by omega)
  · simp only [hmagic, if_false, false_and, not_false_eq_true]

/-- **Looking ids up**: in every state a run reaches, `get` answers an id with the connector that
was added under it and not deleted since, or with none, inside the slot array, exactly when the id
is not one with the magic of this list and a slot number behind the last slot. -/
theorem get_exact_iff (size : Nat) (iIndex : UInt32) (now : Int)
    (connectors : Connectors) (ops : List ListOp) (t : ListState) (log : List ListEvent)
    (hrun : run (logged listStep listEvents) (ListState.init size iIndex now connectors, []) ops =
      .ok (t, log)) (uid : UInt32) :
    t.list.get uid = .ok (heldConnector log uid) ↔
      ¬ (magicOf uid = t.list.iConnectionMagic ∧ size < slotOf uid) :=
  (listRun_heldBySlot size iIndex now connectors ops hrun).get_eq_iff uid

/-- A list of one slot holds a connector under id 1 and is asked for id 2. -/
theorem get_exact_iff_one :
    ∃ t log, run (logged listStep listEvents)
        (ListState.init 1 0 0 fun _ => { Connector.ofFd 7 0 0 (.zero 8) with id := 1 }, [])
        [.getUniqId, .add 0 5] = .ok (t, log) ∧
      (t.list.get 2 = .ok (heldConnector log 2) ↔
        ¬ (magicOf 2 = t.list.iConnectionMagic ∧ 1 < slotOf 2)) :=
  ⟨_, _, rfl, get_exact_iff 1 0 0 (fun _ => { Connector.ofFd 7 0 0 (.zero 8) with id := 1 })
    [.getUniqId, .add 0 5] _ _ rfl 2⟩

/-- There `get` reads behind the slot array. -/
theorem get_behind_slots :
    ∃ t log, run (logged listStep listEvents)
        (ListState.init 1 0 0 fun _ => { Connector.ofFd 7 0 0 (.zero 8) with id := 1 }, [])
        [.getUniqId, .add 0 5] = .ok (t, log) ∧
      heldConnector log 1 = some 0 ∧ t.list.get 1 = .ok (some 0) ∧
      heldConnector log 2 = none ∧ t.list.get 2 = .error .outOfBounds :=
  ⟨_, _, rfl, rfl, rfl, rfl, rfl⟩

end Sails.Net
