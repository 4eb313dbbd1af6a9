import Sails.Net.ConnectorList

/-!
# The slots of a connector list

The free list, its counter, the slot array and the timeout list describe one partition of
the slots `1 .. _total`: free, reserved (handed out by `getUniqId`, not yet added) and
occupied.

- `Consistent`: how the four structures agree, relative to the reserved and the occupied slots
- `getUniqId_spec`, `add_spec`, `refresh_spec`, `del_spec`, `checkTimeout_spec`: no operation
  fails in its domain, and each keeps the agreement
- `connector_list_consistent`: the agreement in every state of a run
-/

namespace Sails.Net

open TransitionRun (Fault ok_of_bind run Along run_ok)
open CMemory

namespace ConnectorList

variable {l l' : ConnectorList} {connectors : Connectors} {reserved added : List Nat}
  {uid : UInt32} {slot : Nat}

/-- `tl` holds an entry with iterator `it` for the slot. -/
def HasEntry (tl : OrderedMultimap Int Nat) (it slot : Nat) : Prop :=
  ∃ e ∈ tl.entries, e.iter = it ∧ e.value = slot

/-- The slot is occupied and keeps the iterator `it`. -/
def Keeps (l : ConnectorList) (it slot : Nat) : Prop :=
  ∃ conn, l.vConn[slot]? = some ⟨some conn, it⟩

/-- The four structures agree: `reserved` are the slots handed out and not added, `added` the
occupied ones. -/
structure Consistent (l : ConnectorList) (reserved added : List Nat) : Prop where
  small : l.total < 2 ^ 20
  magic : slotOf l.iConnectionMagic = 0
  partition : (l.free ++ reserved ++ added).Perm (List.range' 1 l.total)
  freeSize : l.freeSize = l.free.length
  occupied : ∀ slot, (l.first slot).isSome ↔ slot ∈ added
  linked : ∀ it slot, HasEntry l.tl it slot ↔ l.Keeps it slot

/-! ## The slot array -/

theorem getElem?_store (hslot : slot ≤ l.total) (d : ListData) (s : Nat) :
    (l.store slot d).vConn[s]? = if slot = s then some d else l.vConn[s]? := by
  have hlt : slot < l.vConn.length := by
    rw [l.length_vConn]
    exact Nat.lt_succ_of_le hslot
  simp only [store, List.getElem?_set, hlt, if_true]

theorem first_store (hslot : slot ≤ l.total) (d : ListData) (s : Nat) :
    (l.store slot d).first s = if slot = s then d.first else l.first s := by
  simp only [first, getElem?_store hslot]
  split <;> rfl

/-- What a slot keeps after a pair was stored in one of them. -/
theorem keeps_store (hslot : slot ≤ l.total) {conn : Option ConnectorPtr} {it : Nat} (it' s : Nat) :
    (l.store slot ⟨conn, it⟩).Keeps it' s ↔
      (s = slot ∧ conn.isSome ∧ it' = it) ∨ (s ≠ slot ∧ l.Keeps it' s) := by
  simp only [Keeps, getElem?_store hslot]
  by_cases hs : s = slot
  · subst hs
    cases conn <;> simp [eq_comm]
  · simp [hs, Ne.symm hs]

theorem isSome_first_of_keeps {it : Nat} (h : l.Keeps it slot) : (l.first slot).isSome := by
  obtain ⟨conn, hconn⟩ := h
  rw [first, hconn]
  rfl

theorem exists_keeps (h : (l.first slot).isSome) :
    ∃ conn it, l.first slot = some conn ∧ l.vConn[slot]? = some ⟨some conn, it⟩ := by
  obtain ⟨conn, hconn⟩ := Option.isSome_iff_exists.mp h
  obtain ⟨⟨o, it⟩, hd, ho⟩ := Option.bind_eq_some_iff.mp hconn
  obtain rfl : o = some conn := ho
  exact ⟨conn, it, hconn, hd⟩

/-! ## The timeout list -/

theorem hasEntry_insert (tl : OrderedMultimap Int Nat) (stamp : Int) (it s : Nat) :
    HasEntry (tl.insert stamp slot).1 it s ↔ (s = slot ∧ it = tl.nextIter) ∨ HasEntry tl it s := by
  simp only [HasEntry, OrderedMultimap.mem_insert]
  constructor
  · rintro ⟨e, rfl | he, hit, hvalue⟩
    · exact .inl ⟨hvalue.symm, hit.symm⟩
    · exact .inr ⟨e, he, hit, hvalue⟩
  · rintro (⟨rfl, rfl⟩ | ⟨e, he, hit, hvalue⟩)
    · exact ⟨_, .inl rfl, rfl, rfl⟩
    · exact ⟨e, .inr he, hit, hvalue⟩

/-- Erasing through the iterator of a slot's entry takes away that slot's entry only. -/
theorem erase_entry {tl : OrderedMultimap Int Nat} {it : Nat} (h : HasEntry tl it slot) :
    ∃ tl', tl.erase it = .ok tl' ∧ ∀ it' s, HasEntry tl' it' s ↔ it' ≠ it ∧ HasEntry tl it' s := by
  obtain ⟨e, he, hit, -⟩ := h
  obtain ⟨tl', hok, -, hmem⟩ := OrderedMultimap.erase_spec ⟨e, he, hit⟩
  refine ⟨tl', hok, ?_⟩
  intro it' s
  simp only [HasEntry, hmem]
  constructor
  · rintro ⟨e', ⟨he', hne⟩, hit', hvalue⟩
    exact ⟨hit' ▸ hne, e', he', hit', hvalue⟩
  · rintro ⟨hne, e', he', hit', hvalue⟩
    exact ⟨e', ⟨he', hit'.symm ▸ hne⟩, hit', hvalue⟩

/-- An iterator is kept for one slot. -/
theorem hasEntry_inj {tl : OrderedMultimap Int Nat} {it s₁ s₂ : Nat} (h₁ : HasEntry tl it s₁)
    (h₂ : HasEntry tl it s₂) : s₁ = s₂ := by
  obtain ⟨e₁, he₁, hit₁, rfl⟩ := h₁
  obtain ⟨e₂, he₂, hit₂, rfl⟩ := h₂
  rw [OrderedMultimap.eq_of_iter_eq he₁ he₂ (hit₁.trans hit₂.symm)]

/-! ## Entries and iterators -/

/-- The entries of the timeout list are those whose iterators the slots keep. -/
def Linked (l : ConnectorList) : Prop := ∀ it slot, HasEntry l.tl it slot ↔ l.Keeps it slot

/-- Among the iterators kept, the one of a slot's entry is kept by that slot alone, and the
slot keeps no other. -/
theorem Linked.keeps_ne_iff (h : l.Linked) {it : Nat} (hentry : HasEntry l.tl it slot)
    (it' s : Nat) : it' ≠ it ∧ l.Keeps it' s ↔ s ≠ slot ∧ l.Keeps it' s := by
  apply and_congr_left
  intro hk
  apply not_congr
  constructor
  · rintro rfl
    exact hasEntry_inj ((h _ _).mpr hk) hentry
  · rintro rfl
    obtain ⟨conn, hconn⟩ := hk
    obtain ⟨conn', hconn'⟩ := (h _ _).mp hentry
    rw [hconn] at hconn'
    cases hconn'
    rfl

/-- A list in which one slot was stored, and the timeout list has the entries that fit. -/
theorem linked_store {conn : Option ConnectorPtr} {it : Nat} (hslot : slot ≤ l'.total)
    (hvconn : l'.vConn = l.vConn)
    (htl : ∀ it' s, HasEntry l'.tl it' s ↔
      (s = slot ∧ conn.isSome ∧ it' = it) ∨ (s ≠ slot ∧ l.Keeps it' s)) :
    (l'.store slot ⟨conn, it⟩).Linked := by
  intro it' s
  rw [keeps_store hslot]
  refine (htl it' s).trans ?_
  simp only [Keeps, hvconn]

/-- A new entry for an empty slot. -/
theorem Linked.insert (h : l.Linked) (hempty : l.first slot = none) (stamp : Int)
    (it s : Nat) : HasEntry (l.tl.insert stamp slot).1 it s ↔
      (s = slot ∧ it = l.tl.nextIter) ∨ (s ≠ slot ∧ l.Keeps it s) := by
  rw [hasEntry_insert, h it s]
  refine or_congr_right ⟨fun hk => ⟨?_, hk⟩, And.right⟩
  rintro rfl
  have hsome := isSome_first_of_keeps hk
  rw [hempty] at hsome
  cases hsome

/-- A slot's entry goes. -/
theorem Linked.erase (h : l.Linked) {it : Nat} (hentry : HasEntry l.tl it slot) :
    ∃ tl, l.tl.erase it = .ok tl ∧ ∀ it' s, HasEntry tl it' s ↔ s ≠ slot ∧ l.Keeps it' s := by
  obtain ⟨tl, herase, htl⟩ := erase_entry hentry
  refine ⟨tl, herase, ?_⟩
  intro it' s
  rw [htl it' s, h it' s, h.keeps_ne_iff hentry]

/-! ## Consequences of consistency -/

namespace Consistent

variable (h : Consistent l reserved added)
include h

theorem nodup : (l.free ++ reserved ++ added).Nodup :=
  h.partition.nodup_iff.mpr (List.nodup_range' ..)

theorem mem_partition : slot ∈ l.free ++ reserved ++ added ↔ 1 ≤ slot ∧ slot ≤ l.total := by
  rw [h.partition.mem_iff, List.mem_range'_1]
  omega

theorem free_nodup : l.free.Nodup :=
  (List.nodup_append.mp (List.nodup_append.mp h.nodup).1).1

theorem perm {reserved' added' : List Nat} (hr : reserved.Perm reserved') (ha : added.Perm added') :
    Consistent l reserved' added' :=
  { h with
    partition := (((List.Perm.refl _).append hr).append ha).symm.trans h.partition
    occupied := fun slot => (h.occupied slot).trans ha.mem_iff }

theorem occupied_range (hmem : slot ∈ reserved ++ added) : 0 < slot ∧ slot ≤ l.total := by
  apply h.mem_partition.mp
  rw [List.append_assoc]
  exact List.mem_append_right _ hmem

/-- A slot that is handed out and not added is empty. -/
theorem first_reserved (hmem : slot ∈ reserved) : l.first slot = none := by
  have hnot : slot ∉ added := by
    intro hadded
    exact List.disjoint_of_nodup_append h.nodup (List.mem_append_right _ hmem) hadded
  rw [← Option.not_isSome_iff_eq_none, h.occupied slot]
  exact hnot

end Consistent

/-! ## One operation -/

/-- `getUniqId` on a non-empty free list reserves a slot. -/
theorem getUniqId_spec (h : Consistent l reserved added) (hfree : l.free ≠ []) :
    ∃ uid l', l.getUniqId = .ok (uid, l') ∧ magicOf uid = l.iConnectionMagic ∧
      l'.iConnectionMagic = l.iConnectionMagic ∧ l'.total = l.total ∧ l'.vConn = l.vConn ∧
      Consistent l' (slotOf uid :: reserved) added := by
  cases hcons : l.free with
  | nil => exact absurd hcons hfree
  | cons n rest =>
    -- the first free slot is one of the list's
    have hrange : 0 < n ∧ n ≤ l.total := h.mem_partition.mp (by simp [hcons])
    have hsmall : n < 2 ^ 20 := hrange.2.trans_lt h.small
    have hslot := slotOf_or h.magic hsmall
    simp only [getUniqId, hcons, if_pos hrange]
    refine ⟨_, _, rfl, magicOf_or h.magic hsmall, rfl, rfl, rfl, ?_⟩
    rw [hslot]
    have hsize := h.freeSize
    rw [hcons, List.length_cons] at hsize
    refine { h with
      partition := ?_
      freeSize := by simp [hsize] }
    have hpart := h.partition
    rw [hcons] at hpart
    -- the slot goes from the free ones to the reserved ones
    refine List.Perm.trans ?_ hpart
    exact List.Perm.append_right _ List.perm_middle

/-- `add` under a reserved id occupies its slot. -/
theorem add_spec (connectors : Connectors) (conn : ConnectorPtr) (stamp : Int)
    (hmagic : magicOf (connectors conn).id = l.iConnectionMagic)
    (h : Consistent l (slotOf (connectors conn).id :: reserved) added) :
    ∃ l', l.add connectors conn stamp = .ok l' ∧ l'.iConnectionMagic = l.iConnectionMagic ∧
      l'.total = l.total ∧
      (∀ s, l'.first s = if slotOf (connectors conn).id = s then some conn else l.first s) ∧
      Consistent l' reserved (slotOf (connectors conn).id :: added) := by
  generalize hslot : slotOf (connectors conn).id = slot at h ⊢
  have hrange : 0 < slot ∧ slot ≤ l.total := h.occupied_range (by simp)
  -- a reserved slot is empty, so that the guard of `add` holds
  have hempty : l.first slot = none := h.first_reserved (List.mem_cons_self ..)
  have hguard : magicOf (connectors conn).id = l.iConnectionMagic ∧ 0 < slot ∧ slot ≤ l.total ∧
      l.first slot = none := ⟨hmagic, hrange.1, hrange.2, hempty⟩
  simp only [add, hslot, if_pos hguard]
  have hfirst := first_store (l := { l with tl := (l.tl.insert stamp slot).1 }) hrange.2
    ⟨some conn, (l.tl.insert stamp slot).2⟩
  refine ⟨_, rfl, rfl, rfl, hfirst, ?_⟩
  refine { h with
    partition := ?_
    occupied := ?_
    linked := ?_ }
  -- the slot moves from the reserved ones to the occupied ones
  · refine List.Perm.trans ?_ h.partition
    rw [List.append_assoc, List.append_assoc]
    exact List.Perm.append_left _ List.perm_middle
  · intro s
    rw [hfirst s]
    by_cases hs : slot = s
    · simp [hs]
    · rw [if_neg hs]
      refine (h.occupied s).trans ?_
      simp [Ne.symm hs]
  -- the slot points at its new entry, and the entry at the slot
  · refine linked_store (l := l) hrange.2 rfl fun it s => ?_
    refine (Linked.insert h.linked hempty stamp it s).trans ?_
    simp only [Option.isSome_some, true_and, OrderedMultimap.insert_iter]

/-- The assertion of `refresh` and `del` holds for an occupied slot. -/
theorem occupant_spec (h : Consistent l reserved added)
    (hmagic : magicOf uid = l.iConnectionMagic) (hadded : slotOf uid ∈ added) :
    ∃ conn it, l.occupant uid = .ok (conn, it) ∧ l.first (slotOf uid) = some conn ∧
      l.vConn[slotOf uid]? = some ⟨some conn, it⟩ ∧ HasEntry l.tl it (slotOf uid) := by
  have hrange := h.occupied_range (List.mem_append_right _ hadded)
  obtain ⟨conn, it, hfirst, hd⟩ := exists_keeps ((h.occupied _).mpr hadded)
  refine ⟨conn, it, ?_, hfirst, hd, (h.linked it _).mpr ⟨conn, hd⟩⟩
  simp only [occupant, if_pos (And.intro hmagic hrange), hd]

/-- `refresh` of an occupied slot renews its entry and leaves the rest. -/
theorem refresh_spec (connectors : Connectors) (stamp : Int) (h : Consistent l reserved added)
    (hmagic : magicOf uid = l.iConnectionMagic) (hadded : slotOf uid ∈ added) :
    ∃ l' connectors', l.refresh connectors uid stamp = .ok (l', connectors') ∧
      l'.iConnectionMagic = l.iConnectionMagic ∧ l'.total = l.total ∧ l'.free = l.free ∧
      (∀ s, l'.first s = l.first s) ∧ Consistent l' reserved added ∧
      (connectors' = connectors ∨ ∃ conn, l.first (slotOf uid) = some conn ∧
        connectors' = connectors.set conn ((connectors conn).setLastRefreshTime stamp)) := by
  obtain ⟨conn, it, hocc, hfirst, hd, hentry⟩ := occupant_spec h hmagic hadded
  have hrange := h.occupied_range (List.mem_append_right _ hadded)
  simp only [refresh, hocc, bind, Except.bind]
  split
  · exact ⟨l, connectors, rfl, rfl, rfl, rfl, fun _ => rfl, h, .inl rfl⟩
  · obtain ⟨tl', herase, htl'⟩ := Linked.erase h.linked hentry
    simp only [herase]
    generalize htl : tl'.insert stamp (slotOf uid) = ins
    have hfirst' := first_store (l := { l with tl := ins.1 }) hrange.2 ⟨some conn, ins.2⟩
    have hsame : ∀ s, (ConnectorList.store { l with tl := ins.1 } (slotOf uid)
        ⟨some conn, ins.2⟩).first s = l.first s := by
      intro s
      rw [hfirst' s]
      split
      · rename_i hs
        rw [← hs, hfirst]
      · rfl
    refine ⟨_, _, rfl, rfl, rfl, rfl, hsame, ?_, .inr ⟨conn, hfirst, rfl⟩⟩
    refine { h with
      occupied := fun s => by rw [hsame s]; exact h.occupied s
      linked := ?_ }
    refine linked_store (l := l) hrange.2 rfl fun it' s => ?_
    subst htl
    refine (hasEntry_insert tl' stamp it' s).trans ?_
    rw [htl' it' s]
    simp only [Option.isSome_some, true_and, OrderedMultimap.insert_iter]

/-- `del` of an occupied slot frees it. -/
theorem del_spec (hmagic : magicOf uid = l.iConnectionMagic)
    (h : Consistent l reserved (slotOf uid :: added)) :
    ∃ l', l.del uid = .ok l' ∧ l'.iConnectionMagic = l.iConnectionMagic ∧ l'.total = l.total ∧
      (∀ s, l'.first s = if slotOf uid = s then none else l.first s) ∧
      Consistent l' reserved added := by
  obtain ⟨conn, it, hocc, hfirst, hd, hentry⟩ := occupant_spec h hmagic (by simp)
  have hrange := h.occupied_range (by simp : slotOf uid ∈ reserved ++ slotOf uid :: added)
  have hnot : slotOf uid ∉ added := (List.nodup_cons.mp (List.nodup_append.mp h.nodup).2.1).1
  obtain ⟨tl', herase, htl'⟩ := Linked.erase h.linked hentry
  simp only [del, hocc, bind, Except.bind, delSlot, if_pos hrange, hd, herase]
  generalize hl : ({ l with tl := tl', free := l.free ++ [slotOf uid],
                            freeSize := l.freeSize + 1 } : ConnectorList) = l₁
  have hvconn : l₁.vConn = l.vConn := by rw [← hl]
  have htl : l₁.tl = tl' := by rw [← hl]
  have htotal : slotOf uid ≤ l₁.total := by rw [← hl]; exact hrange.2
  have hfirst' : ∀ s, (l₁.store (slotOf uid) ⟨none, it⟩).first s =
      if slotOf uid = s then none else l.first s := by
    intro s
    rw [first_store htotal, first, first, hvconn]
  refine ⟨_, rfl, by rw [← hl]; rfl, by rw [← hl]; rfl, hfirst', ?_⟩
  refine
    { small := by rw [← hl]; exact h.small
      magic := by rw [← hl]; exact h.magic
      partition := ?_
      freeSize := by rw [← hl]; simp [store, h.freeSize]
      occupied := ?_
      linked := ?_ }
  · subst hl
    refine List.Perm.trans ?_ h.partition
    simp only [store, List.append_assoc, List.singleton_append]
    apply List.Perm.append_left
    exact List.perm_middle.symm
  · intro s
    rw [hfirst' s]
    by_cases hs : slotOf uid = s
    · subst hs
      simp [hnot]
    · rw [if_neg hs, h.occupied s]
      simp [Ne.symm hs]
  · refine linked_store htotal hvconn fun it' s => ?_
    rw [htl, htl' it' s]
    simp only [Option.isSome_none, Bool.false_eq_true, false_and, and_false, false_or]

/-! ## What a call that succeeded has done -/

theorem getUniqId_ok (h : Consistent l reserved added) (hok : l.getUniqId = .ok (uid, l')) :
    magicOf uid = l.iConnectionMagic ∧ l'.iConnectionMagic = l.iConnectionMagic ∧
      (∀ s, l'.first s = l.first s) ∧ Consistent l' (slotOf uid :: reserved) added := by
  have hfree : l.free ≠ [] := by
    intro hnil
    simp [getUniqId, hnil] at hok
  obtain ⟨uid', l'', hok', hmagic, hsame, -, hvconn, hcons⟩ := getUniqId_spec h hfree
  rw [hok] at hok'
  cases hok'
  refine ⟨hmagic, hsame, ?_, hcons⟩
  intro s
  rw [first, first, hvconn]

/-- The assertion of `refresh` and `del` was passed. -/
theorem occupant_ok {conn : ConnectorPtr} {it : Nat} (h : Consistent l reserved added)
    (hok : l.occupant uid = .ok (conn, it)) :
    magicOf uid = l.iConnectionMagic ∧ l.first (slotOf uid) = some conn ∧ slotOf uid ∈ added := by
  unfold occupant at hok
  split at hok
  · rename_i hguard
    split at hok
    · rename_i conn' it' hd
      cases hok
      have hfirst : l.first (slotOf uid) = some conn := by rw [first, hd]; rfl
      refine ⟨hguard.1, hfirst, (h.occupied _).mp ?_⟩
      rw [hfirst]
      rfl
    · cases hok
  · cases hok

theorem refresh_ok {connectors' : Connectors} {stamp : Int} (h : Consistent l reserved added)
    (hok : l.refresh connectors uid stamp = .ok (l', connectors')) :
    l'.iConnectionMagic = l.iConnectionMagic ∧ (∀ s, l'.first s = l.first s) ∧
      Consistent l' reserved added ∧
      (connectors' = connectors ∨
        ∃ conn, connectors' = connectors.set conn ((connectors conn).setLastRefreshTime stamp)) := by
  obtain ⟨found, hocc, -⟩ := ok_of_bind hok
  obtain ⟨hmagic, -, hadded⟩ := occupant_ok h hocc
  obtain ⟨l'', connectors'', hok', hsame, -, -, hfirst, hcons, hconns⟩ :=
    refresh_spec connectors stamp h hmagic hadded
  rw [hok] at hok'
  cases hok'
  exact ⟨hsame, hfirst, hcons, hconns.imp_right fun ⟨conn, _, hset⟩ => ⟨conn, hset⟩⟩

theorem del_ok (h : Consistent l reserved added) (hok : l.del uid = .ok l') :
    ∃ conn added', l.first (slotOf uid) = some conn ∧
      l'.iConnectionMagic = l.iConnectionMagic ∧
      (∀ s, l'.first s = if slotOf uid = s then none else l.first s) ∧
      Consistent l' reserved added' := by
  obtain ⟨found, hocc, -⟩ := ok_of_bind hok
  obtain ⟨hmagic, hconn, hadded⟩ := occupant_ok h hocc
  have hcons := h.perm (List.Perm.refl _) (List.perm_cons_erase hadded)
  obtain ⟨l'', hok', hsame, -, hfirst, hcons'⟩ := del_spec hmagic hcons
  rw [hok] at hok'
  cases hok'
  exact ⟨_, _, hconn, hsame, hfirst, hcons'⟩

/-- `get` finds what the slot of an id with this list's magic holds. -/
theorem get_eq_some {conn : ConnectorPtr} :
    l.get uid = .ok (some conn) ↔
      magicOf uid = l.iConnectionMagic ∧ l.first (slotOf uid) = some conn := by
  unfold get
  split
  · rename_i hmagic
    simp only [first, hmagic, true_and]
    cases hd : l.vConn[slotOf uid]? with
    | none => simp
    | some d => simp
  · rename_i hmagic
    simp [hmagic]

/-- The loop of `checkTimeout` meets occupied slots only. -/
theorem timeoutEntries_spec (h : Consistent l reserved added)
    (callback : Connectors → ConnectorPtr → Connectors) (es : List (MultimapEntry Int Nat))
    (hes : ∀ e ∈ es, e ∈ l.tl.entries) (connectors : Connectors) :
    ∃ connectors', l.timeoutEntries callback connectors es = .ok connectors' := by
  induction es generalizing connectors with
  | nil => exact ⟨connectors, rfl⟩
  | cons e es ih =>
    have hkeeps : l.Keeps e.iter e.value :=
      (h.linked _ _).mp ⟨e, hes e (List.mem_cons_self ..), rfl, rfl⟩
    obtain ⟨conn, -, hfirst, -⟩ := exists_keeps (isSome_first_of_keeps hkeeps)
    have hentry : ∃ connectors', l.timeoutEntry callback connectors e = .ok connectors' := by
      simp only [timeoutEntry, hfirst]
      split <;> exact ⟨_, rfl⟩
    obtain ⟨connectors', hok⟩ := hentry
    simp only [timeoutEntries, hok, bind, Except.bind]
    exact ih (fun e' he' => hes e' (List.mem_cons_of_mem _ he')) connectors'

/-- `checkTimeout` changes nothing of the list but the time of the last check. -/
theorem checkTimeout_spec (h : Consistent l reserved added) (connectors : Connectors)
    (callback : Connectors → ConnectorPtr → Connectors) (iCurTime : Int) :
    ∃ last connectors', l.checkTimeout connectors callback iCurTime =
      .ok ({ l with lastTimeoutTime := last }, connectors') := by
  unfold checkTimeout
  split
  · exact ⟨l.lastTimeoutTime, connectors, rfl⟩
  · obtain ⟨connectors', hok⟩ := timeoutEntries_spec h callback (l.tl.upTo iCurTime)
      (fun e he => (OrderedMultimap.mem_upTo.mp he).1) connectors
    exact ⟨iCurTime, connectors', by simp only [hok, bind, Except.bind]⟩

/-- The magic of `init` leaves the low 20 bits to the slot numbers. -/
theorem slotOf_magic (a b : UInt32) :
    slotOf ((a &&& (0xFF000000 : UInt32)) + (b &&& (0xFFF00000 : UInt32))) = 0 := by
  have ha : slotOf (a &&& (0xFF000000 : UInt32)) = 0 := by
    rw [slotOf, UInt32.and_assoc]
    simp
  have hb : slotOf (b &&& (0xFFF00000 : UInt32)) = 0 := by
    rw [slotOf, UInt32.and_assoc]
    simp
  rw [slotOf_eq] at ha hb ⊢
  rw [UInt32.toNat_add, Nat.mod_mod_of_dvd _ (by decide), Nat.add_mod, ha, hb, Nat.add_zero,
    Nat.zero_mod]

theorem init_consistent {size : Nat} (hsize : size < 2 ^ 20) (iIndex : UInt32) (now : Int) :
    Consistent (init size iIndex now) [] [] where
  small := hsize
  magic := slotOf_magic _ _
  partition := by simp [init]
  freeSize := by simp [init]
  occupied := by
    intro slot
    simp [first, init, List.getElem?_replicate]
  linked := by
    intro it slot
    simp [HasEntry, Keeps, init, List.getElem?_replicate]

end ConnectorList

/-! ## Runs -/

open ConnectorList

/-- A connector list in use. -/
structure ListState where
  list : ConnectorList
  connectors : Connectors
  /-- the ids `getUniqId` returned that were not added since -/
  reserved : List UInt32
  /-- the ids added and not deleted since -/
  added : List UInt32

/-- A call of one of the list's functions. -/
inductive ListOp where
  | getUniqId
  | add (conn : ConnectorPtr) (stamp : Int)
  | refresh (uid : UInt32) (stamp : Int)
  | del (uid : UInt32)
  | checkTimeout (callback : Connectors → ConnectorPtr → Connectors) (iCurTime : Int)
  /-- whoever holds a pointer changes the connector behind it -/
  | assign (conn : ConnectorPtr) (c : Connector)

/-- One call. -/
def listStep (s : ListState) : ListOp → Except Fault ListState
  | .getUniqId => do
    let (uid, list) ← s.list.getUniqId
    .ok { s with list := list, reserved := uid :: s.reserved }
  | .add conn stamp => do
    let list ← s.list.add s.connectors conn stamp
    let uid := (s.connectors conn).id
    .ok { s with list := list, reserved := s.reserved.erase uid, added := uid :: s.added }
  | .refresh uid stamp => do
    let (list, connectors) ← s.list.refresh s.connectors uid stamp
    .ok { s with list := list, connectors := connectors }
  | .del uid => do
    let list ← s.list.del uid
    .ok { s with list := list, added := s.added.erase uid }
  | .checkTimeout callback iCurTime => do
    let (list, connectors) ← s.list.checkTimeout s.connectors callback iCurTime
    .ok { s with list := list, connectors := connectors }
  | .assign conn c => .ok { s with connectors := s.connectors.set conn c }

/-- The list after `init`. -/
def ListState.init (size : Nat) (iIndex : UInt32) (now : Int) (connectors : Connectors) :
    ListState where
  list := ConnectorList.init size iIndex now
  connectors := connectors
  reserved := []
  added := []

/-- What the callers of the list keep to. -/
def ListOp.Admissible (s : ListState) : ListOp → Prop
  | .getUniqId => s.list.free ≠ []
  | .add conn _ => (s.connectors conn).id ∈ s.reserved
  | .refresh uid _ => uid ∈ s.added
  | .del uid => uid ∈ s.added
  | .checkTimeout .. => True
  | .assign .. => True

/-- The invariant of a run. -/
structure ListState.Inv (size : Nat) (s : ListState) : Prop where
  consistent : Consistent s.list (s.reserved.map slotOf) (s.added.map slotOf)
  total : s.list.total = size
  magic : ∀ uid ∈ s.reserved ++ s.added, magicOf uid = s.list.iConnectionMagic

/-- **Step**: an admissible call succeeds and keeps the invariant. -/
theorem listStep_inv {size : Nat} (s : ListState) (op : ListOp) (h : s.Inv size)
    (hop : op.Admissible s) : ∃ t, listStep s op = .ok t ∧ t.Inv size := by
  have hcons := h.consistent
  cases op with
  | getUniqId =>
    obtain ⟨uid, l', hok, hmagic, hsame, htotal, -, hcons'⟩ := getUniqId_spec hcons hop
    simp only [listStep, hok, bind, Except.bind]
    refine ⟨_, rfl, hcons', htotal.trans h.total, ?_⟩
    intro id hid
    rcases List.mem_cons.mp hid with rfl | hid
    · exact hmagic.trans hsame.symm
    · exact (h.magic id hid).trans hsame.symm
  | add conn stamp =>
    have hperm := List.perm_cons_erase hop
    have hmagic := h.magic _ (List.mem_append_left s.added hop)
    obtain ⟨l', hok, hsame, htotal, -, hcons'⟩ := add_spec s.connectors conn stamp hmagic
      (hcons.perm (hperm.map slotOf) (List.Perm.refl _))
    simp only [listStep, hok, bind, Except.bind]
    refine ⟨_, rfl, hcons', htotal.trans h.total, ?_⟩
    intro id hid
    refine (h.magic id ?_).trans hsame.symm
    rcases List.mem_append.mp hid with hid | hid
    · exact List.mem_append_left _ (List.mem_of_mem_erase hid)
    · rcases List.mem_cons.mp hid with rfl | hid
      · exact List.mem_append_left _ hop
      · exact List.mem_append_right _ hid
  | refresh uid stamp =>
    have hmagic := h.magic _ (List.mem_append_right s.reserved hop)
    obtain ⟨l', connectors', hok, hsame, htotal, -, -, hcons', -⟩ := refresh_spec s.connectors stamp
      hcons hmagic (List.mem_map_of_mem hop)
    simp only [listStep, hok, bind, Except.bind]
    exact ⟨_, rfl, hcons', htotal.trans h.total, fun id hid => (h.magic id hid).trans hsame.symm⟩
  | del uid =>
    have hperm := List.perm_cons_erase hop
    have hmagic := h.magic _ (List.mem_append_right s.reserved hop)
    obtain ⟨l', hok, hsame, htotal, -, hcons'⟩ := del_spec hmagic
      (hcons.perm (List.Perm.refl _) (hperm.map slotOf))
    simp only [listStep, hok, bind, Except.bind]
    refine ⟨_, rfl, hcons', htotal.trans h.total, ?_⟩
    intro id hid
    refine (h.magic id ?_).trans hsame.symm
    rcases List.mem_append.mp hid with hid | hid
    · exact List.mem_append_left _ hid
    · exact List.mem_append_right _ (List.mem_of_mem_erase hid)
  | checkTimeout callback iCurTime =>
    obtain ⟨last, connectors', hok⟩ := checkTimeout_spec hcons s.connectors callback iCurTime
    simp only [listStep, hok, bind, Except.bind]
    exact ⟨_, rfl, { hcons with }, h.total, h.magic⟩
  | assign conn c =>
    exact ⟨_, rfl, hcons, h.total, h.magic⟩

theorem listInit_inv {size : Nat} (hsize : size < 2 ^ 20) (iIndex : UInt32) (now : Int)
    (connectors : Connectors) : (ListState.init size iIndex now connectors).Inv size where
  consistent := init_consistent hsize iIndex now
  total := rfl
  magic := by simp [ListState.init]

/-! ## What the invariant says of the slots -/

/-- The states of a slot. -/
inductive SlotState where
  | free
  | reserved
  | occupied
  deriving DecidableEq

/-- The slot is in the given state. -/
def ListState.InState (s : ListState) (slot : Nat) : SlotState → Prop
  | .free => slot ∈ s.list.free
  | .reserved => slot ∈ s.reserved.map slotOf
  | .occupied => (s.list.first slot).isSome

/-- The representation invariant of a list of `size` slots. -/
structure ListState.Partitioned (s : ListState) (size : Nat) : Prop where
  free_nodup : s.list.free.Nodup
  freeSize : s.list.freeSize = s.list.free.length
  one_state : ∀ slot, 1 ≤ slot → slot ≤ size → ∃! st, s.InState slot st
  in_range : ∀ slot st, s.InState slot st → 1 ≤ slot ∧ slot ≤ size
  /-- the occupied slots are those of the connectors added and not deleted since -/
  occupied : ∀ slot, s.InState slot .occupied ↔ slot ∈ s.added.map slotOf
  one_entry : ∀ slot, s.InState slot .occupied → ∃! e, e ∈ s.list.tl.entries ∧ e.value = slot
  no_other : ∀ e ∈ s.list.tl.entries, s.InState e.value .occupied
  iterator : ∀ slot conn it, s.list.vConn[slot]? = some ⟨some conn, it⟩ →
    ∃ e ∈ s.list.tl.entries, e.value = slot ∧ e.iter = it
  size_eq : s.list.size = (List.range' 1 size).countP fun slot =>
    decide (slot ∈ s.reserved.map slotOf) || (s.list.first slot).isSome

theorem ListState.Inv.partitioned {size : Nat} {s : ListState} (h : s.Inv size) :
    s.Partitioned size := by
  obtain ⟨hcons, rfl, -⟩ := h
  have hmem : ∀ slot, (1 ≤ slot ∧ slot ≤ s.list.total) ↔
      slot ∈ s.list.free ∨ slot ∈ s.reserved.map slotOf ∨ (s.list.first slot).isSome := by
    intro slot
    rw [← hcons.mem_partition, List.mem_append, List.mem_append, hcons.occupied, or_assoc]
  obtain ⟨hleft, -, hadded⟩ := List.nodup_append.mp hcons.nodup
  obtain ⟨hfree, -, hreserved⟩ := List.nodup_append.mp hleft
  have hfr : ∀ slot ∈ s.list.free, slot ∉ s.reserved.map slotOf :=
    fun slot h₁ h₂ => hreserved slot h₁ slot h₂ rfl
  have hother : ∀ slot ∈ s.list.free ++ s.reserved.map slotOf, ¬ (s.list.first slot).isSome :=
    fun slot h₁ h₂ => hadded slot h₁ slot ((hcons.occupied slot).mp h₂) rfl
  refine
    { free_nodup := hfree
      freeSize := hcons.freeSize
      one_state := ?_
      in_range := ?_
      occupied := hcons.occupied
      one_entry := ?_
      no_other := ?_
      iterator := ?_
      size_eq := ?_ }
  · intro slot hlow hhigh
    rcases (hmem slot).mp ⟨hlow, hhigh⟩ with hs | hs | hs
    · refine ⟨.free, hs, ?_⟩
      rintro (_ | _ | _) hst
      · rfl
      · exact absurd hst (hfr slot hs)
      · exact absurd hst (hother slot (List.mem_append_left _ hs))
    · refine ⟨.reserved, hs, ?_⟩
      rintro (_ | _ | _) hst
      · exact absurd hs (hfr slot hst)
      · rfl
      · exact absurd hst (hother slot (List.mem_append_right _ hs))
    · refine ⟨.occupied, hs, ?_⟩
      rintro (_ | _ | _) hst
      · exact absurd hs (hother slot (List.mem_append_left _ hst))
      · exact absurd hs (hother slot (List.mem_append_right _ hst))
      · rfl
  · rintro slot (_ | _ | _) hst
    · exact (hmem slot).mpr (.inl hst)
    · exact (hmem slot).mpr (.inr (.inl hst))
    · exact (hmem slot).mpr (.inr (.inr hst))
  · intro slot hst
    obtain ⟨conn, it, -, hd⟩ := exists_keeps hst
    obtain ⟨e, he, hit, hvalue⟩ := (hcons.linked it slot).mpr ⟨conn, hd⟩
    refine ⟨e, ⟨he, hvalue⟩, ?_⟩
    rintro e' ⟨he', hvalue'⟩
    -- the entry found is the one whose iterator the slot keeps
    obtain ⟨conn', hd'⟩ := (hcons.linked e'.iter slot).mp ⟨e', he', rfl, hvalue'⟩
    rw [hd] at hd'
    cases hd'
    exact OrderedMultimap.eq_of_iter_eq he' he hit.symm
  · intro e he
    exact isSome_first_of_keeps ((hcons.linked e.iter e.value).mp ⟨e, he, rfl, rfl⟩)
  · intro slot conn it hd
    obtain ⟨e, he, hit, hvalue⟩ := (hcons.linked it slot).mpr ⟨conn, hd⟩
    exact ⟨e, he, hvalue, hit⟩
  -- of the partition, exactly the free slots are not counted
  · rw [← hcons.partition.countP_eq, List.append_assoc, List.countP_append]
    have hzero : s.list.free.countP (fun slot =>
        decide (slot ∈ s.reserved.map slotOf) || (s.list.first slot).isSome) = 0 := by
      rw [List.countP_eq_zero]
      intro slot hs
      simpa using ⟨by simpa using hfr slot hs, by simpa using hother slot (List.mem_append_left _ hs)⟩
    have hall : (s.reserved.map slotOf ++ s.added.map slotOf).countP (fun slot =>
        decide (slot ∈ s.reserved.map slotOf) || (s.list.first slot).isSome) =
        (s.reserved.map slotOf ++ s.added.map slotOf).length := by
      rw [List.countP_eq_length]
      intro slot hs
      rw [Bool.or_eq_true, decide_eq_true_iff, hcons.occupied]
      exact List.mem_append.mp hs
    have hlength := hcons.partition.length_eq
    simp only [List.length_append, List.length_range'] at hlength hall
    rw [hzero, hall, ConnectorList.size, hcons.freeSize]
    omega

/-- **Representation invariant**: along every run whose calls the callers may make, no
assertion fails and no access leaves the list, and in the state reached the slots are
partitioned as the free list, the ids handed out and the slot array say. -/
theorem connector_list_consistent (size : Nat) (hsize : size < 2 ^ 20) (iIndex : UInt32)
    (now : Int) (connectors : Connectors) (ops : List ListOp)
    (hops : Along listStep (fun s op => op.Admissible s)
      (ListState.init size iIndex now connectors) ops) :
    ∃ t, run listStep (ListState.init size iIndex now connectors) ops = .ok t ∧
      t.Partitioned size := by
  obtain ⟨t, hrun, hinv⟩ := run_ok listStep_inv (listInit_inv hsize iIndex now connectors) hops
  exact ⟨t, hrun, hinv.partitioned⟩

/-- One connection comes, is refreshed and goes. -/
theorem connector_list_consistent_once :
    ∃ t, run listStep (ListState.init 1 0 0 fun _ => { Connector.ofFd 7 0 0 (.zero 8) with id := 1 })
      [.getUniqId, .add 0 5, .refresh 1 9, .checkTimeout (fun c _ => c) 6, .del 1] = .ok t ∧
      t.Partitioned 1 := by
  refine connector_list_consistent 1 (by decide) 0 0 _ _ ?_
  refine .cons_ok (by simp [ListOp.Admissible, ListState.init, ConnectorList.init]) rfl ?_
  refine .cons_ok (by decide : (1 : UInt32) ∈ [(0 : UInt32) ||| 1]) rfl ?_
  refine .cons_ok (List.mem_singleton_self (1 : UInt32)) rfl ?_
  refine .cons_ok trivial rfl ?_
  exact .cons_ok (List.mem_singleton_self (1 : UInt32)) rfl trivial

end Sails.Net
