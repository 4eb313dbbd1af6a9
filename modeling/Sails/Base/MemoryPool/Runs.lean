import Sails.Base.MemoryPool.Blocks

/-!
# Runs of `base::MemoryPoll`

- `live_blocks_apart`: the blocks that clients have never overlap
- `free_lists_owned_iff`: the free lists lead into the pool's own chunks as long as they start empty
  and are empty when the chunks are released
-/

namespace Sails.Base

open TransitionRun
open ForwardList
open Ledger
open MemoryPool

/-- No free list has a block when the chunks are released. -/
def ReleasesUnused (m : MemoryPool) : PoolAction → Prop
  | .releaseMemory => ∀ i, m.freeList i = none
  | _ => True

/-- What a run keeps. -/
def PoolGood (m : MemoryPool) : Prop := ∃ free, PoolOk m free

variable {m m' : MemoryPool}

/-- **Step**: what a client may do does not fail, and keeps each block at its place. -/
theorem PoolGood.step (h : PoolGood m) {a : PoolAction} (hclient : ClientKeeps m a)
    (hunused : ReleasesUnused m a) : ∃ m', poolStep m a = .ok m' ∧ PoolGood m' := by
  obtain ⟨free, h⟩ := h
  cases a with
  | allocate bytes =>
    obtain ⟨p, m', hallocate, hok⟩ := h.allocate hclient
    refine ⟨_, ?_, hok⟩
    simp only [poolStep, hallocate]
  | deallocate pointer bytes =>
    cases pointer with
    | none => exact ⟨m, rfl, free, h⟩
    | some p =>
      obtain ⟨m', hdeallocate, hok⟩ := h.deallocate (hclient p rfl)
      refine ⟨_, ?_, hok⟩
      simp only [poolStep, hdeallocate]
      rfl
  | write block words => exact ⟨_, rfl, free, h.write hclient words⟩
  | releaseMemory =>
    obtain ⟨m', hrelease, hok⟩ := h.releaseMemory hunused
    refine ⟨_, ?_, _, hok⟩
    simp only [poolStep, hrelease]

/-- A pool whose free lists start empty. -/
theorem poolGood_construct (link : Ptr → Option Ptr) :
    PoolGood (construct (fun _ => none) link) := by
  refine ⟨fun _ => [], fun _ => rfl, fun _ _ hp => (nomatch hp), fun _ hb => (nomatch hb), ?_, .nil,
    fun _ hc => (nomatch hc), fun _ _ => rfl⟩
  have hcontents : contents (fun _ => []) [] = fun _ => [] := by
    funext r
    cases r <;> rfl
  change Distinct (contents (fun _ => []) [])
  rw [hcontents]
  exact distinct_empty

/-! ### Blocks with clients -/

/-- What the clients of a pool rely on. -/
structure BlocksApart (m : MemoryPool) : Prop where
  /-- no two blocks with clients have a byte in common, -/
  apart : m.live.Pairwise fun b b' => ∀ q, ¬ (b.Covers q ∧ b'.Covers q)
  /-- a small one is inside one chunk, at a multiple of its rounded size, -/
  inside : ∀ b ∈ m.live, b.bytes ≤ 256 → ∃ c ∈ m.chunks, c.data = b.pointer.piece ∧
    (roundUp b.bytes).toNat ∣ b.pointer.offset ∧ b.bytes.toNat ≤ (roundUp b.bytes).toNat ∧
      b.pointer.offset + (roundUp b.bytes).toNat ≤ c.size
  /-- and the free lists end, share no block and have no block that is with a client. -/
  lists : ∃ free : Fin 32 → List Ptr, (∀ i, Chain m.link (m.freeList i) (free i)) ∧
    (∀ i, (free i).Nodup) ∧ (∀ i j p, p ∈ free i → p ∈ free j → i = j) ∧
      ∀ i, ∀ b ∈ m.live, b.pointer ∉ free i

theorem PoolGood.blocksApart (h : PoolGood m) : BlocksApart m := by
  obtain ⟨free, h⟩ := h
  have hpointers : m.live.Pairwise fun b b' => b.pointer ≠ b'.pointer :=
    List.pairwise_map.mp (h.distinct.nodup .client)
  refine ⟨?_, ?_, free, h.chains, fun i => h.distinct.nodup (.free i), ?_, ?_⟩
  -- blocks with clients are at different addresses, so no two share a byte
  · refine hpointers.imp_of_mem fun hb hb' hne q => ?_
    exact h.apart (h.live _ hb) (h.live _ hb') hne q
  · intro b hb hmax
    have hpos := (h.live b hb).pos
    obtain ⟨c, hc, hdata, hsize, k, hk, hoffset⟩ := (h.live b hb).small hmax
    rw [roundUp_eq_cellSize hpos hmax]
    refine ⟨c, hc, hdata, ⟨k, hoffset⟩, le_cellSize hpos hmax, ?_⟩
    rw [hoffset, hsize, ← Nat.mul_succ]
    exact Nat.mul_le_mul_left _ hk
  · intro i j p hp hp'
    cases h.distinct.apart (.free i) (.free j) p hp hp'
    rfl
  · intro i b hb hmem
    cases h.distinct.apart (.free i) .client b.pointer hmem (List.mem_map_of_mem hb)

/-- The chunks stay. -/
def KeepsChunks : PoolAction → Prop
  | .releaseMemory => False
  | _ => True

/-- **Blocks**: whatever the clients of a pool allocate, write and give back, nothing fails, and the
blocks they have never overlap. -/
theorem live_blocks_apart (link : Ptr → Option Ptr) (as : List PoolAction)
    (hclient : Along poolStep (fun m a => ClientKeeps m a ∧ KeepsChunks a)
      (construct (fun _ => none) link) as) :
    ∃ m, run poolStep (construct (fun _ => none) link) as = .ok m ∧ BlocksApart m := by
  obtain ⟨m, hrun, hgood⟩ := run_ok (I := PoolGood) (fun m a h ha => by
    refine h.step ha.1 ?_
    cases a with
    | releaseMemory => exact ha.2.elim
    | _ => trivial) (poolGood_construct link) hclient
  exact ⟨m, hrun, hgood.blocksApart⟩

/-- Small and large blocks come and go. -/
def someBlocks : List PoolAction :=
  [.allocate 10, .allocate 300, .deallocate (some ⟨0, 0⟩) 10, .allocate 16]

theorem someBlocks_keeps : Along poolStep (fun m a => ClientKeeps m a ∧ KeepsChunks a)
    (construct (fun _ => none) fun _ => none) someBlocks := by
  have hpos : (1 : UInt64) ≤ 10 ∧ (1 : UInt64) ≤ 300 ∧ (1 : UInt64) ≤ 16 := by decide
  refine .cons_ok ⟨hpos.1, trivial⟩ rfl (.cons_ok ⟨hpos.2.1, trivial⟩ rfl ?_)
  refine .cons_ok ⟨?_, trivial⟩ rfl (.cons_ok ⟨hpos.2.2, trivial⟩ rfl trivial)
  intro p hp
  cases hp
  decide

theorem live_blocks_apart_some :
    ∃ m, run poolStep (construct (fun _ => none) fun _ => none) someBlocks = .ok m ∧
      BlocksApart m :=
  live_blocks_apart (fun _ => none) someBlocks someBlocks_keeps

/-! ### The pool's own memory -/

/-- The address is in a chunk that the pool has. -/
def InChunk (m : MemoryPool) (p : Ptr) : Prop :=
  ∃ c ∈ m.chunks, c.data = p.piece ∧ p.offset < c.size

/-- The free lists lead into the pool's chunks only, and so small blocks are from there. -/
structure OwnsFree (m : MemoryPool) : Prop where
  reaches : ∀ i p, Reaches m.link (m.freeList i) p → InChunk m p
  allocates : ∀ bytes m' p, 1 ≤ bytes → bytes ≤ 256 → m.allocate bytes = .ok (m', some p) →
    InChunk m' p

theorem inChunk_of_cell {i : Fin 32} {p : Ptr} (h : Cell m i p) : InChunk m p := by
  obtain ⟨c, hc, hdata, hsize, k, hk, hoffset⟩ := h
  refine ⟨c, hc, hdata, ?_⟩
  rw [hoffset, hsize]
  exact Nat.mul_lt_mul_of_pos_left hk (cellSize_pos i)

theorem PoolGood.ownsFree (h : PoolGood m) : OwnsFree m := by
  obtain ⟨free, h⟩ := h
  constructor
  · intro i p hp
    exact inChunk_of_cell (h.cells i p ((h.chains i).reaches_iff.mp hp))
  · intro bytes m' p hpos hmax hallocate
    obtain ⟨p', n', hallocate', free', hok⟩ := h.allocate hpos
    cases hallocate.symm.trans hallocate'
    have hlive := hok.live ⟨p, bytes⟩ (List.mem_cons_self ..)
    exact inChunk_of_cell (hlive.small hmax)

/-- A release with a block on a free list leaves the list pointing into a chunk released. -/
theorem releasesUnused_of_ownsFree {a : PoolAction} (hstep : poolStep m a = .ok m')
    (howns : OwnsFree m') : ReleasesUnused m a := by
  cases a with
  | releaseMemory =>
    simp only [poolStep] at hstep
    split at hstep
    · cases hstep
    · rename_i n hrelease
      cases hstep
      unfold MemoryPool.releaseMemory at hrelease
      split at hrelease
      · cases hrelease
      · rename_i n' hdelete
        cases hrelease
        intro i
        -- the loop leaves the free lists alone, and there is no chunk left for one to lead into
        have hlist := congrFun (deleteChunks_freeList hdelete) i
        cases hhead : m.freeList i with
        | none => rfl
        | some p =>
          obtain ⟨c, hc, -⟩ := howns.reaches i p (by
            change Reaches _ (n'.freeList i) p
            rw [hlist, hhead]
            exact .here p)
          cases hc
  | _ => trivial

/-- **The free lists**: whatever a pool's clients do, its free lists lead into its own chunks in
every state exactly when they are null at the start and empty whenever the chunks are released. -/
theorem free_lists_owned_iff (freeList : Fin 32 → Option Ptr) (link : Ptr → Option Ptr)
    (as : List PoolAction) (hclient : Along poolStep ClientKeeps (construct freeList link) as)
    (hrun : run poolStep (construct freeList link) as = .ok m) :
    (Along poolStep (fun m _ => OwnsFree m) (construct freeList link) as ∧ OwnsFree m) ↔
      (∀ i, freeList i = none) ∧ Along poolStep ReleasesUnused (construct freeList link) as := by
  by_cases hnull : ∀ i, freeList i = none
  -- from null lists the invariant holds up to the first release of a block on a list
  · have hconstruct : freeList = fun _ => none := funext hnull
    subst hconstruct
    have hiff : Along poolStep (fun m _ => OwnsFree m) (construct (fun _ => none) link) as ∧
        OwnsFree m ↔ Along poolStep ReleasesUnused (construct (fun _ => none) link) as := by
      refine always_iff_along (fun _ h => PoolGood.ownsFree h) (fun m a m' h hclient hstep => ?_)
        (poolGood_construct link) hclient hrun
      refine ⟨fun hunused => ?_, releasesUnused_of_ownsFree hstep⟩
      obtain ⟨n, hn, hgood⟩ := h.step hclient hunused
      cases hn.symm.trans hstep
      exact hgood
    rw [hiff]
    exact (and_iff_right hnull).symm
  -- the first state has a free list and no chunk
  · refine ⟨fun ⟨halong, hlast⟩ => absurd ?_ hnull, fun h => absurd h.1 hnull⟩
    have hfirst : OwnsFree (construct freeList link) := by
      cases as with
      | nil =>
        cases hrun
        exact hlast
      | cons => exact halong.head
    intro i
    cases hhead : freeList i with
    | none => rfl
    | some p =>
      obtain ⟨c, hc, -⟩ := hfirst.reaches i p (by
        change Reaches link (freeList i) p
        rw [hhead]
        exact .here p)
      cases hc

theorem free_lists_owned_some :
    ∃ m, run poolStep (construct (fun _ => none) fun _ => none) someBlocks = .ok m ∧ OwnsFree m := by
  have hclient := someBlocks_keeps.mono fun _ _ ha => ha.1
  have hrun : ∃ m, run poolStep (construct (fun _ => none) fun _ => none) someBlocks = .ok m :=
    ⟨_, rfl⟩
  obtain ⟨m, hrun⟩ := hrun
  refine ⟨m, hrun, ((free_lists_owned_iff _ _ _ hclient hrun).mpr ⟨fun _ => rfl, ?_⟩).2⟩
  exact .cons_ok trivial rfl (.cons_ok trivial rfl (.cons_ok trivial rfl
    (.cons_ok trivial rfl trivial)))

/-- After a release the free list still leads into the chunk released. -/
theorem free_list_dangles : ∃ m, run poolStep (construct (fun _ => none) fun _ => none)
    [.allocate 8, .releaseMemory] = .ok m ∧ ¬ OwnsFree m := by
  refine ⟨_, rfl, fun howns => ?_⟩
  obtain ⟨c, hc, -⟩ := howns.reaches 0 ⟨0, 8⟩ (.here _)
  cases hc

end Sails.Base
