import Sails.Net.ConnectorSlots

/-!
# Ids across several connector lists

A server has one `ConnectorList` for each net thread, and an id is to name one connection of
the whole server. The lists have different indices, so the magics of their ids differ.

- `IdFamily`, `familyStep`: any number of lists, and the ids handed out and deleted
- `IdsUnique`: what is wanted of the ids
- `connection_ids_unique`: it holds in every run in which `add` is given ids handed out
-/

namespace Sails.Net

open TransitionRun
open ConnectorList

/-! ## One list -/

/-- The magic `init` sets. -/
def initMagic (iIndex : UInt32) (now : Int) : UInt32 :=
  (ConnectorList.init 0 iIndex now).iConnectionMagic

/-- The four bits above the slot number are the index. -/
theorem initMagic_index {iIndex : UInt32} (h : iIndex < 16) (now : Int) :
    (initMagic iIndex now).toNat / 2 ^ 20 % 16 = iIndex.toNat := by
  have hlt : iIndex.toNat < 16 := h
  -- the time takes the bits from 24 on
  have htime : (UInt32.ofInt now <<< 24 &&& (0xFF000000 : UInt32)).toNat % 2 ^ 24 = 0 := by
    rw [UInt32.toNat_and, ← Nat.and_two_pow_sub_one_eq_mod, Nat.and_assoc]
    exact Nat.and_zero _
  have hindex : (iIndex <<< 20).toNat = iIndex.toNat * 2 ^ 20 := by
    rw [UInt32.toNat_shiftLeft, Nat.shiftLeft_eq]
    exact Nat.mod_eq_of_lt (by change iIndex.toNat * 2 ^ 20 < 2 ^ 32; omega)
  have hself : (iIndex <<< 20 &&& (0xFFF00000 : UInt32)) = iIndex <<< 20 := by
    refine magicOf_eq_self ?_
    rw [slotOf_eq, hindex, Nat.mul_mod_left]
  have hsum : (initMagic iIndex now).toNat =
      ((UInt32.ofInt now <<< 24 &&& (0xFF000000 : UInt32)).toNat + iIndex.toNat * 2 ^ 20) % 2 ^ 32 := by
    rw [← hindex, ← hself]
    exact UInt32.toNat_add _ _
  rw [hsum]
  omega

/-- Lists with different indices have different magics, whenever they were initialised. -/
theorem index_of_initMagic {i j : UInt32} {now now' : Int} (hi : i < 16) (hj : j < 16)
    (h : initMagic i now = initMagic j now') : i = j := by
  have hsame := initMagic_index hi now
  rw [h, initMagic_index hj now'] at hsame
  exact UInt32.toNat_inj.mp hsame.symm

/-- What the callers of `add` keep to: the id was handed out and not added since. -/
def ListOp.AddsHandedOut (s : ListState) : ListOp → Prop
  | .add conn _ => (s.connectors conn).id ∈ s.reserved
  | _ => True

variable {size : Nat} {s t : ListState} {op : ListOp} {uid : UInt32}

/-- An id whose slot is occupied was added. -/
theorem ListState.Inv.mem_added (h : s.Inv size) (hmagic : magicOf uid = s.list.iConnectionMagic)
    (hslot : slotOf uid ∈ s.added.map slotOf) : uid ∈ s.added := by
  obtain ⟨uid', hmem, hsame⟩ := List.mem_map.mp hslot
  have hmagic' := h.magic uid' (List.mem_append_right _ hmem)
  rw [uid_ext (hmagic.trans hmagic'.symm) hsame.symm]
  exact hmem

/-- A call that succeeded was one the callers may make. -/
theorem ListState.Inv.admissible_of_ok (h : s.Inv size) (hadd : op.AddsHandedOut s)
    (hok : listStep s op = .ok t) : op.Admissible s := by
  cases op with
  | getUniqId =>
    intro hnil
    simp [listStep, getUniqId, hnil, bind, Except.bind] at hok
  | add conn stamp => exact hadd
  | refresh uid stamp =>
    obtain ⟨r, hrefresh, -⟩ := ok_of_bind hok
    obtain ⟨found, hocc, -⟩ := ok_of_bind hrefresh
    obtain ⟨hmagic, -, hadded⟩ := occupant_ok h.consistent hocc
    exact h.mem_added hmagic hadded
  | del uid =>
    obtain ⟨r, hdel, -⟩ := ok_of_bind hok
    obtain ⟨found, hocc, -⟩ := ok_of_bind hdel
    obtain ⟨hmagic, -, hadded⟩ := occupant_ok h.consistent hocc
    exact h.mem_added hmagic hadded
  | checkTimeout callback iCurTime => trivial
  | assign conn c => trivial

/-- The ids a call hands out. -/
def handsOut (s : ListState) : ListOp → List UInt32
  | .getUniqId =>
    match s.list.getUniqId with
    | .ok (uid, _) => [uid]
    | .error _ => []
  | _ => []

/-- The ids a call deletes. -/
def deletes : ListOp → List UInt32
  | .del uid => [uid]
  | _ => []

/-- **Step**: an id handed out is new, and the ids held are those held before and the new one,
without the one deleted. -/
theorem listStep_ids (h : s.Inv size) (hadd : op.AddsHandedOut s) (hok : listStep s op = .ok t) :
    t.Inv size ∧ t.list.iConnectionMagic = s.list.iConnectionMagic ∧
      (∀ uid ∈ handsOut s op, magicOf uid = s.list.iConnectionMagic ∧ 0 < slotOf uid ∧
        slotOf uid ≤ size ∧ uid ∉ s.reserved ++ s.added) ∧
      ∀ uid, uid ∈ s.reserved ++ s.added ∧ uid ∉ deletes op ∨ uid ∈ handsOut s op →
        uid ∈ t.reserved ++ t.added := by
  obtain ⟨t', hok', hinv⟩ := listStep_inv s op h (h.admissible_of_ok hadd hok)
  rw [hok] at hok'
  cases hok'
  refine ⟨hinv, ?_⟩
  cases op with
  | getUniqId =>
    obtain ⟨⟨uid, list⟩, hget, hok⟩ := ok_of_bind hok
    cases hok
    obtain ⟨hmagic, hsame, -, hcons⟩ := getUniqId_ok h.consistent hget
    have hslot := hcons.occupied_range (List.mem_append_left _ (List.mem_cons_self ..))
    have htotal : list.total = size := hinv.total
    refine ⟨hsame, ?_, ?_⟩
    · intro uid' hmem
      simp only [handsOut, hget, List.mem_singleton] at hmem
      subst hmem
      refine ⟨hmagic, hslot.1, htotal ▸ hslot.2, ?_⟩
      -- the slot was free, so no id held has it
      have hnodup := hcons.nodup
      rw [List.append_assoc] at hnodup
      have hnot := (List.nodup_cons.mp (List.nodup_append.mp hnodup).2.1).1
      intro hheld
      have hmem := List.mem_map_of_mem (f := slotOf) hheld
      rw [List.map_append] at hmem
      exact hnot hmem
    · rintro uid' (⟨hheld, -⟩ | hmem)
      · exact List.mem_cons_of_mem _ hheld
      · simp only [handsOut, hget, List.mem_singleton] at hmem
        subst hmem
        exact List.mem_cons_self ..
  | add conn stamp =>
    obtain ⟨list, hlist, hok⟩ := ok_of_bind hok
    cases hok
    have hmagic := h.magic _ (List.mem_append_left s.added hadd)
    obtain ⟨l', hok', hsame, -⟩ := add_spec s.connectors conn stamp hmagic
      (h.consistent.perm ((List.perm_cons_erase hadd).map slotOf) (List.Perm.refl _))
    rw [hlist] at hok'
    cases hok'
    refine ⟨hsame, fun uid hmem => absurd hmem List.not_mem_nil, ?_⟩
    rintro uid (⟨hheld, -⟩ | hmem)
    -- the id moves from one list to the other
    · by_cases huid : uid = (s.connectors conn).id
      · exact List.mem_append_right _ (huid ▸ List.mem_cons_self ..)
      · rcases List.mem_append.mp hheld with hres | hadded
        · exact List.mem_append_left _ ((List.mem_erase_of_ne huid).mpr hres)
        · exact List.mem_append_right _ (List.mem_cons_of_mem _ hadded)
    · cases hmem
  | refresh uid stamp =>
    obtain ⟨⟨list, connectors⟩, hlist, hok⟩ := ok_of_bind hok
    cases hok
    obtain ⟨hsame, -⟩ := refresh_ok h.consistent hlist
    refine ⟨hsame, fun uid hmem => absurd hmem List.not_mem_nil, ?_⟩
    rintro uid (⟨hheld, -⟩ | hmem)
    · exact hheld
    · cases hmem
  | del uid =>
    obtain ⟨list, hlist, hok⟩ := ok_of_bind hok
    cases hok
    obtain ⟨-, -, -, hsame, -⟩ := del_ok h.consistent hlist
    refine ⟨hsame, fun uid hmem => absurd hmem List.not_mem_nil, ?_⟩
    rintro uid' (⟨hheld, hnot⟩ | hmem)
    · have hne : uid' ≠ uid := fun heq => hnot (List.mem_singleton.mpr heq)
      rcases List.mem_append.mp hheld with hres | hadded
      · exact List.mem_append_left _ hres
      · exact List.mem_append_right _ ((List.mem_erase_of_ne hne).mpr hadded)
    · cases hmem
  | checkTimeout callback iCurTime =>
    obtain ⟨last, connectors', hcheck⟩ := checkTimeout_spec h.consistent s.connectors callback iCurTime
    simp only [listStep, hcheck, bind, Except.bind, Except.ok.injEq] at hok
    subst hok
    refine ⟨rfl, fun uid hmem => absurd hmem List.not_mem_nil, ?_⟩
    rintro uid (⟨hheld, -⟩ | hmem)
    · exact hheld
    · cases hmem
  | assign conn c =>
    cases hok
    refine ⟨rfl, fun uid hmem => absurd hmem List.not_mem_nil, ?_⟩
    rintro uid (⟨hheld, -⟩ | hmem)
    · exact hheld
    · cases hmem

/-! ## Several lists -/

/-- What happens to ids: a list hands one out, or deletes it. -/
inductive IdEvent (ι : Type*) where
  | handedOut (i : ι) (uid : UInt32)
  | deleted (i : ι) (uid : UInt32)

/-- A family of lists, and what happened to ids so far. -/
structure IdFamily (ι : Type*) where
  lists : ι → ListState
  log : List (IdEvent ι)

variable {ι : Type*}

/-- Lists with these sizes and indices, initialised at these times. -/
def IdFamily.init (size : ι → Nat) (index : ι → UInt32) (now : ι → Int)
    (connectors : ι → Connectors) : IdFamily ι where
  lists := fun i => ListState.init (size i) (index i) (now i) (connectors i)
  log := []

/-- One of the lists has handed the id out, and none has deleted it since. -/
def Outstanding (log : List (IdEvent ι)) (uid : UInt32) : Prop :=
  ∃ before i after, log = before ++ .handedOut i uid :: after ∧ ∀ j, .deleted j uid ∉ after

/-- What is wanted of the ids of a family. -/
structure IdsUnique (size : ι → Nat) (f : IdFamily ι) : Prop where
  /-- no id is handed out while an equal one is outstanding -/
  fresh : ∀ before i uid after, f.log = before ++ .handedOut i uid :: after → ¬ Outstanding before uid
  /-- an id is the magic of its list and a slot number, and the masks recover both -/
  recovered : ∀ i uid, .handedOut i uid ∈ f.log → ∃ slot, 1 ≤ slot ∧ slot ≤ size i ∧
    uid = (f.lists i).list.iConnectionMagic ||| UInt32.ofNat slot ∧
    magicOf uid = (f.lists i).list.iConnectionMagic ∧ slotOf uid = slot
  /-- the other lists do not know the id -/
  foreign : ∀ i j uid, .handedOut i uid ∈ f.log → i ≠ j → (f.lists j).list.get uid = .ok none

/-! ## Logs of ids -/

section Logs

variable {log events : List (IdEvent ι)} {uid : UInt32}

/-- What is outstanding after new events is one of them, or was before and is not deleted. -/
theorem Outstanding.of_append (h : Outstanding (log ++ events) uid) :
    (∃ i, .handedOut i uid ∈ events) ∨ Outstanding log uid ∧ ∀ j, .deleted j uid ∉ events := by
  obtain ⟨before, i, after, hlog, hnot⟩ := h
  rcases List.append_eq_append_iff.mp hlog with ⟨new, rfl, hevents⟩ | ⟨old, rfl, hafter⟩
  · exact .inl ⟨i, by simp [hevents]⟩
  · rcases List.cons_eq_append_iff.mp hafter with ⟨rfl, hevents⟩ | ⟨old', rfl, rfl⟩
    · exact .inl ⟨i, by simp [hevents]⟩
    · right
      refine ⟨⟨before, i, old', rfl, ?_⟩, ?_⟩
      · exact fun j hmem => hnot j (List.mem_append_left _ hmem)
      · exact fun j hmem => hnot j (List.mem_append_right _ hmem)

/-- Every id handed out was not outstanding. -/
def FreshIds (log : List (IdEvent ι)) : Prop :=
  ∀ before i uid after, log = before ++ .handedOut i uid :: after → ¬ Outstanding before uid

theorem FreshIds.append (h : FreshIds log) (hone : events.length ≤ 1)
    (hnew : ∀ i uid, .handedOut i uid ∈ events → ¬ Outstanding log uid) :
    FreshIds (log ++ events) := by
  -- an event among the new ones is the only one
  have hfirst : ∀ before e after, events = before ++ e :: after → before = [] := by
    intro before e after hevents
    rw [hevents, List.length_append, List.length_cons] at hone
    exact List.eq_nil_of_length_eq_zero (by omega)
  intro before i uid after hlog
  rcases List.append_eq_append_iff.mp hlog with ⟨new, rfl, hevents⟩ | ⟨old, rfl, hafter⟩
  · rw [hfirst _ _ _ hevents, List.append_nil]
    exact hnew i uid (by simp [hevents])
  · rcases List.cons_eq_append_iff.mp hafter with ⟨rfl, hevents⟩ | ⟨old', rfl, rfl⟩
    · rw [List.append_nil] at hnew
      exact hnew i uid (by simp [hevents])
    · exact h before i uid old' rfl

end Logs

/-! ## The invariant of a family -/

/-- The lists are consistent, and what is outstanding is held by one of them. -/
structure FamilyOk (size : ι → Nat) (magic : ι → UInt32) (f : IdFamily ι) : Prop where
  inv : ∀ i, (f.lists i).Inv (size i)
  magics : ∀ i, (f.lists i).list.iConnectionMagic = magic i
  ids : ∀ i uid, .handedOut i uid ∈ f.log →
    magicOf uid = magic i ∧ 0 < slotOf uid ∧ slotOf uid ≤ size i
  held : ∀ uid, Outstanding f.log uid → ∃ i, uid ∈ (f.lists i).reserved ++ (f.lists i).added
  fresh : FreshIds f.log

theorem length_idEvents (s : ListState) (op : ListOp) (i : ι) :
    ((handsOut s op).map (IdEvent.handedOut i) ++
      (deletes op).map (IdEvent.deleted i)).length ≤ 1 := by
  cases op with
  | getUniqId =>
    simp only [handsOut, deletes]
    split <;> simp
  | _ => simp [handsOut, deletes]

theorem handedOut_mem_idEvents {s : ListState} {op : ListOp} {i j : ι} {uid : UInt32}
    (h : IdEvent.handedOut j uid ∈ (handsOut s op).map (IdEvent.handedOut i) ++
      (deletes op).map (IdEvent.deleted i)) : i = j ∧ uid ∈ handsOut s op := by
  simpa [and_comm, eq_comm] using h

theorem familyInit_ok {size : ι → Nat} (hsize : ∀ i, size i < 2 ^ 20) (index : ι → UInt32)
    (now : ι → Int) (connectors : ι → Connectors) :
    FamilyOk size (fun i => initMagic (index i) (now i))
      (IdFamily.init size index now connectors) where
  inv := fun i => listInit_inv (hsize i) (index i) (now i) (connectors i)
  magics := fun i => rfl
  ids := fun i uid hmem => absurd hmem List.not_mem_nil
  held := by
    rintro uid ⟨before, i, after, hlog, -⟩
    cases before <;> cases hlog
  fresh := by
    intro before i uid after hlog
    cases before <;> cases hlog

theorem FamilyOk.idsUnique {size : ι → Nat} {magic : ι → UInt32}
    (hmagic : ∀ i j, magic i = magic j → i = j) {f : IdFamily ι} (h : FamilyOk size magic f) :
    IdsUnique size f where
  fresh := h.fresh
  recovered := by
    intro i uid hmem
    obtain ⟨hm, hpos, hle⟩ := h.ids i uid hmem
    refine ⟨slotOf uid, hpos, hle, ?_, hm.trans (h.magics i).symm, rfl⟩
    have hsmall := hle.trans_lt ((h.inv i).total ▸ (h.inv i).consistent.small)
    have hzero := (h.inv i).consistent.magic
    refine uid_ext ?_ ?_
    · rw [magicOf_or hzero hsmall, hm, h.magics i]
    · rw [slotOf_or hzero hsmall]
  foreign := by
    intro i j uid hmem hne
    obtain ⟨hm, -⟩ := h.ids i uid hmem
    unfold ConnectorList.get
    rw [if_neg]
    intro hj
    exact hne (hmagic i j (by rw [← hm, hj, h.magics j]))

/-! ## Runs of a family -/

variable [DecidableEq ι]

/-- A call on one of the lists. -/
def familyStep (f : IdFamily ι) (call : ι × ListOp) : Except Fault (IdFamily ι) :=
  match listStep (f.lists call.1) call.2 with
  | .error e => .error e
  | .ok t =>
    .ok {
      lists := fun j => if j = call.1 then t else f.lists j
      log := f.log ++ (handsOut (f.lists call.1) call.2).map (.handedOut call.1) ++
        (deletes call.2).map (.deleted call.1) }

/-- **Step**: a call on one list keeps the ids of the family in order. -/
theorem familyStep_ok {size : ι → Nat} {magic : ι → UInt32}
    (hmagic : ∀ i j, magic i = magic j → i = j) {f g : IdFamily ι} {call : ι × ListOp}
    (h : FamilyOk size magic f) (hadd : call.2.AddsHandedOut (f.lists call.1))
    (hstep : familyStep f call = .ok g) : FamilyOk size magic g := by
  obtain ⟨i, op⟩ := call
  unfold familyStep at hstep
  dsimp only at hstep hadd
  split at hstep
  · cases hstep
  · rename_i t hok
    have hlists : ∀ j, g.lists j = if j = i then t else f.lists j := by
      intro j
      cases hstep
      rfl
    have hlog : g.log = f.log ++ ((handsOut (f.lists i) op).map (.handedOut i) ++
        (deletes op).map (.deleted i)) := by
      cases hstep
      exact List.append_assoc ..
    obtain ⟨hinv, hsame, hnew, hkeeps⟩ := listStep_ids (h.inv i) hadd hok
    have hcase : ∀ j, g.lists j = f.lists j ∨ j = i ∧ g.lists j = t := by
      intro j
      rw [hlists]
      by_cases hji : j = i
      · exact .inr ⟨hji, if_pos hji⟩
      · exact .inl (if_neg hji)
    have hself : g.lists i = t := (hlists i).trans (if_pos rfl)
    refine ⟨?_, ?_, ?_, ?_, ?_⟩
    · intro j
      rcases hcase j with heq | ⟨rfl, heq⟩
      · rw [heq]
        exact h.inv j
      · rw [heq]
        exact hinv
    · intro j
      rcases hcase j with heq | ⟨rfl, heq⟩
      · rw [heq]
        exact h.magics j
      · rw [heq]
        exact hsame.trans (h.magics j)
    · intro j uid hmem
      rw [hlog] at hmem
      rcases List.mem_append.mp hmem with hold | hmem
      · exact h.ids j uid hold
      · obtain ⟨rfl, huid⟩ := handedOut_mem_idEvents hmem
        obtain ⟨hm, hpos, hle, -⟩ := hnew uid huid
        exact ⟨hm.trans (h.magics i), hpos, hle⟩
    · intro uid hout
      rw [hlog] at hout
      rcases hout.of_append with ⟨j, hmem⟩ | ⟨hold, hnot⟩
      · obtain ⟨rfl, huid⟩ := handedOut_mem_idEvents hmem
        refine ⟨i, ?_⟩
        rw [hself]
        exact hkeeps uid (.inr huid)
      · obtain ⟨j, hheld⟩ := h.held uid hold
        refine ⟨j, ?_⟩
        rcases hcase j with heq | ⟨rfl, heq⟩
        · rw [heq]
          exact hheld
        · rw [heq]
          refine hkeeps uid (.inl ⟨hheld, ?_⟩)
          intro hdel
          exact hnot j (List.mem_append_right _ (List.mem_map_of_mem hdel))
    · rw [hlog]
      refine h.fresh.append (length_idEvents _ _ _) ?_
      intro j uid hmem hout
      obtain ⟨rfl, huid⟩ := handedOut_mem_idEvents hmem
      obtain ⟨hm, -, -, hnotHeld⟩ := hnew uid huid
      obtain ⟨j, hheld⟩ := h.held uid hout
      -- the list that holds the id has its magic, so it is the list that hands it out
      have hj : j = i := hmagic j i (by
        rw [← h.magics j, ← (h.inv j).magic uid hheld, hm, h.magics i])
      exact hnotHeld (hj ▸ hheld)

/-- **Ids are unique**: for lists with fewer than 2^20 slots and different indices below 16,
initialised at any times, in every run of calls in which `add` is given connectors whose ids
were handed out and not added since. `AddsHandedOut` is a condition on the run: the list does not
check it, its callers `accept_socket` and `add_connector` keep it. -/
theorem connection_ids_unique (size : ι → Nat) (index : ι → UInt32) (now : ι → Int)
    (connectors : ι → Connectors) (hsize : ∀ i, size i < 2 ^ 20) (hindex : ∀ i, index i < 16)
    (hdistinct : ∀ i j, index i = index j → i = j) (calls : List (ι × ListOp)) (g : IdFamily ι)
    (hadd : Along familyStep (fun f call => call.2.AddsHandedOut (f.lists call.1))
      (IdFamily.init size index now connectors) calls)
    (hrun : run familyStep (IdFamily.init size index now connectors) calls = .ok g) :
    IdsUnique size g := by
  have hmagic : ∀ i j, initMagic (index i) (now i) = initMagic (index j) (now j) → i = j :=
    fun i j hsame => hdistinct i j (index_of_initMagic (hindex i) (hindex j) hsame)
  have hok := run_invariant (fun f call g hI hP h => familyStep_ok hmagic hI hP h)
    (familyInit_ok hsize index now connectors) hadd hrun
  exact hok.idsUnique hmagic

/-- Two lists of one slot; an id is handed out, added, deleted and handed out again. -/
theorem connection_ids_unique_reused :
    ∃ g, run familyStep (IdFamily.init (fun _ : Bool => 1) (fun i => if i then 1 else 0) (fun _ => 0)
        fun _ _ => { Connector.ofFd 7 0 0 (.zero 8) with id := 1 })
      [(false, .getUniqId), (true, .getUniqId), (false, .add 0 5), (false, .del 1),
        (false, .getUniqId)] = .ok g ∧ IdsUnique (fun _ => 1) g := by
  have hindex : ∀ i : Bool, (if i then 1 else 0 : UInt32) < 16 := by decide
  have hdistinct : ∀ i j : Bool, (if i then 1 else 0 : UInt32) = (if j then 1 else 0) → i = j := by
    decide
  refine ⟨_, rfl, connection_ids_unique _ _ (fun _ => 0)
    (fun _ _ => { Connector.ofFd 7 0 0 (.zero 8) with id := 1 }) (fun _ => by decide) hindex hdistinct
    [(false, .getUniqId), (true, .getUniqId), (false, .add 0 5), (false, .del 1),
      (false, .getUniqId)] _ ?_ rfl⟩
  refine .cons_ok trivial rfl (.cons_ok trivial rfl (.cons_ok ?_ rfl ?_))
  · exact (by decide : (1 : UInt32) ∈ [(0 : UInt32) ||| 1])
  · exact .cons_ok trivial rfl (.cons_ok trivial rfl trivial)

end Sails.Net
