import Sails.Net.ConnectorFamily
import Sails.Net.ConnectorList.History

/-!
# Reuse of slots

The free list is a queue: `del` puts a slot in at the back and `getUniqId` takes one out at the
front. So an id that was deleted keeps its slot out of use for as long as there are others.

- `QueueOrder`: the slots handed out and those still free are a queue and what came in behind it
- `slot_reused_last`: the slot of a deleted id comes after all slots that were free then
-/

namespace Sails.Net

open TransitionRun
open ConnectorList

/-! ## Queues -/

/-- What stands in a queue before an element comes out before it does. -/
theorem prefix_of_append_cons_eq {α : Type*} {a : α} {front back before after : List α}
    (hnot : a ∉ front) (h : before ++ a :: after = front ++ a :: back) : front <+: before := by
  rcases List.append_eq_append_iff.mp h with ⟨new, rfl, hcons⟩ | ⟨new, rfl, -⟩
  -- the element would stand in front of itself
  · cases new with
    | nil =>
      rw [List.append_nil]
    | cons b new =>
      cases hcons
      exact absurd (List.mem_append_right before (List.mem_cons_self ..)) hnot
  · exact List.prefix_append front new

variable {s t w : ListState} {op : ListOp} {uid : UInt32} {issued : List UInt32} {queue : List Nat}

/-- The slots handed out since the free list was `queue` and those free now are `queue` and what
came in behind it. -/
def QueueOrder (queue : List Nat) (p : ListState × List UInt32) : Prop :=
  ∃ behind, p.2.map slotOf ++ p.1.list.free = queue ++ behind

/-- The parameters of a list. -/
structure IdRange (l : ConnectorList) : Prop where
  small : l.total < 2 ^ 20
  magic : slotOf l.iConnectionMagic = 0

/-- **Step**: a slot is taken out at the front or put in at the back. -/
theorem listStep_queueOrder (hrange : IdRange s.list) (h : QueueOrder queue (s, issued))
    (hok : listStep s op = .ok t) :
    IdRange t.list ∧ QueueOrder queue (t, issued ++ handsOut s op) := by
  obtain ⟨behind, hqueue⟩ := h
  dsimp only at hqueue
  cases listStep_cases hok with
  | @getUniqId slot rest hfree hpos hle =>
    refine ⟨{ hrange with }, behind, ?_⟩
    have hget : s.list.getUniqId = .ok (s.list.iConnectionMagic ||| UInt32.ofNat slot,
        { s.list with free := rest, freeSize := s.list.freeSize - 1 }) := by
      simp only [getUniqId, hfree, if_pos (And.intro hpos hle)]
    -- the id handed out names the slot at the front
    have hslot := slotOf_or hrange.magic (hle.trans_lt hrange.small)
    simp only [handsOut, hget, List.map_append, List.map_cons, List.map_nil, hslot,
      List.append_assoc, List.singleton_append]
    rw [← hfree]
    exact hqueue
  | @del conn it uid tl hmagic hle hd herase =>
    -- the slot comes in behind all others
    refine ⟨{ hrange with }, behind ++ [slotOf uid], ?_⟩
    simp only [handsOut, List.append_nil]
    rw [← List.append_assoc, ← hqueue, List.append_assoc]
    rfl
  | add huid hmagic hle hempty =>
    simp only [handsOut, List.append_nil]
    exact ⟨{ hrange with }, behind, hqueue⟩
  | keep hmagic hle hd hearly =>
    simp only [handsOut, List.append_nil]
    exact ⟨hrange, behind, hqueue⟩
  | refresh hmagic hle hd hlate herase =>
    simp only [handsOut, List.append_nil]
    exact ⟨{ hrange with }, behind, hqueue⟩
  | checkTimeout =>
    simp only [handsOut, List.append_nil]
    exact ⟨{ hrange with }, behind, hqueue⟩
  | assign =>
    simp only [handsOut, List.append_nil]
    exact ⟨hrange, behind, hqueue⟩

/-- **Run**: from any list, whatever is done to it. -/
theorem listRun_queueOrder {ops : List ListOp} (hrange : IdRange t.list)
    (hrun : run (logged listStep handsOut) (t, []) ops = .ok (w, issued)) :
    QueueOrder t.list.free (w, issued) := by
  -- nothing is handed out yet, and nothing has come in behind
  have hinv := run_invariant'
    (I := fun p : ListState × List UInt32 => IdRange p.1.list ∧ QueueOrder t.list.free p) ?_
    ⟨hrange, [], (List.append_nil _).symm⟩ hrun
  · exact hinv.2
  · rintro ⟨s, log⟩ op ⟨s', log'⟩ ⟨hr, hq⟩ hstep
    obtain ⟨hok, hlog⟩ := logged_eq_ok hstep
    dsimp only at hok hlog
    subst hlog
    exact listStep_queueOrder hr hq hok

/-- A slot that is deleted was not free. -/
theorem ListState.Inv.free_of_del {size : Nat} (h : s.Inv size) (hok : listStep s (.del uid) = .ok t) :
    IdRange t.list ∧ t.list.free = s.list.free ++ [slotOf uid] ∧ slotOf uid ∉ s.list.free := by
  have hcons := h.consistent
  cases listStep_cases hok with
  | del hmagic hle hd herase =>
    refine ⟨⟨hcons.small, hcons.magic⟩, rfl, fun hfree => ?_⟩
    -- the slot is occupied, and no slot is free and occupied
    have hadded := (hcons.occupied (slotOf uid)).mp (by rw [first_of_vConn hd]; rfl)
    exact List.disjoint_of_nodup_append hcons.nodup (List.mem_append_left _ hfree) hadded

/-- **Reuse of slots**: after any run in which `add` is given ids handed out and not added since,
and after `del(u)`, in every continuation `getUniqId` has returned each of the slots that were free
at the `del` before it returns the slot of `u` again. `AddsHandedOut` is a condition on the run:
the list does not check it, its callers `accept_socket` and `add_connector` keep it. -/
theorem slot_reused_last (size : Nat) (hsize : size < 2 ^ 20) (iIndex : UInt32) (now : Int)
    (connectors : Connectors) (ops : List ListOp) (s t w : ListState) (u : UInt32)
    (more : List ListOp) (issued : List UInt32)
    (hadd : Along listStep (fun s op => op.AddsHandedOut s)
      (ListState.init size iIndex now connectors) ops)
    (hrun : run listStep (ListState.init size iIndex now connectors) ops = .ok s)
    (hdel : listStep s (.del u) = .ok t)
    (hmore : run (logged listStep handsOut) (t, []) more = .ok (w, issued))
    (before : List UInt32) (uid : UInt32) (after : List UInt32)
    (hissued : issued = before ++ uid :: after) (hslot : slotOf uid = slotOf u) :
    ∀ slot ∈ s.list.free, slot ∈ before.map slotOf := by
  have hinv : s.Inv size := run_invariant (fun _ _ _ h hP hok => (listStep_ids h hP hok).1)
    (listInit_inv hsize iIndex now connectors) hadd hrun
  -- the free list is that before the `del`, and the slot of `u` behind it
  obtain ⟨hrange, hfree, hnot⟩ := hinv.free_of_del hdel
  obtain ⟨behind, hqueue⟩ := listRun_queueOrder hrange hmore
  dsimp only at hqueue
  rw [hissued, hfree, List.map_append, List.map_cons, hslot, List.append_assoc, List.append_assoc,
    List.cons_append, List.singleton_append] at hqueue
  exact fun slot hmem => (prefix_of_append_cons_eq hnot hqueue).subset hmem

/-- Of two slots one is deleted while the other is free, and both are handed out again. -/
theorem slot_reused_last_two :
    ∃ s t w issued, run listStep
        (ListState.init 2 0 0 fun _ => { Connector.ofFd 7 0 0 (.zero 8) with id := 1 })
        [.getUniqId, .add 0 5] = .ok s ∧ listStep s (.del 1) = .ok t ∧
      run (logged listStep handsOut) (t, []) [.getUniqId, .getUniqId] = .ok (w, issued) ∧
      issued = [2] ++ 1 :: [] ∧ ∀ slot ∈ s.list.free, slot ∈ [2].map slotOf := by
  refine ⟨_, _, _, _, rfl, rfl, rfl, rfl, slot_reused_last 2 (by decide) 0 0
    (fun _ => { Connector.ofFd 7 0 0 (.zero 8) with id := 1 }) [.getUniqId, .add 0 5] _ _ _ 1
    [.getUniqId, .getUniqId] _ ?_ rfl rfl rfl [2] 1 [] rfl rfl⟩
  exact .cons_ok trivial rfl (.cons_ok (by decide : (1 : UInt32) ∈ [(0 : UInt32) ||| 1]) rfl trivial)

end Sails.Net
