import Sails.Base.MemoryPool

/-!
# The blocks of `base::MemoryPoll`

- `PoolOk`: every block of a chunk is on the free list of its size or with a client, and at one of
  these places only
- `PoolOk.allocate`, `PoolOk.deallocate`, `PoolOk.write`, `PoolOk.releaseMemory`: each function keeps it
-/

namespace Sails.Base

open TransitionRun
open ForwardList
open Ledger

namespace MemoryPool

/-! ## Sizes -/

theorem roundUp_all : ∀ n : Fin 257, (roundUp (UInt64.ofNat n)).toNat = (n.val + 7) / 8 * 8 := by
  decide +kernel

theorem roundUp_toNat {bytes : UInt64} (h : bytes ≤ 256) :
    (roundUp bytes).toNat = (bytes.toNat + 7) / 8 * 8 := by
  have hlt : bytes.toNat < 257 := Nat.lt_succ_of_le (UInt64.le_iff_toNat_le.mp h)
  have hall := roundUp_all ⟨bytes.toNat, hlt⟩
  simpa using hall

/-- The number of the free list for a size from 1 to 256. -/
def classOf (bytes : UInt64) : Fin 32 := Fin.ofNat 32 ((bytes.toNat - 1) / 8)

/-- The size of the blocks of a free list. -/
def cellSize (i : Fin 32) : Nat := 8 * (i + 1)

theorem cellSize_pos (i : Fin 32) : 0 < cellSize i := Nat.mul_pos (by decide) (Nat.succ_pos _)

section

variable {bytes : UInt64} (hpos : 1 ≤ bytes) (hmax : bytes ≤ 256)

include hpos hmax

theorem classOf_val : (classOf bytes).val = (bytes.toNat - 1) / 8 := by
  have hle : bytes.toNat ≤ 256 := UInt64.le_iff_toNat_le.mp hmax
  have hge : 1 ≤ bytes.toNat := UInt64.le_iff_toNat_le.mp hpos
  exact Nat.mod_eq_of_lt (by omega)

theorem roundUp_eq_cellSize : (roundUp bytes).toNat = cellSize (classOf bytes) := by
  have hge : 1 ≤ bytes.toNat := UInt64.le_iff_toNat_le.mp hpos
  rw [roundUp_toNat hmax, cellSize, classOf_val hpos hmax]
  omega

theorem le_cellSize : bytes.toNat ≤ cellSize (classOf bytes) := by
  rw [cellSize, classOf_val hpos hmax]
  omega

omit hpos in
theorem roundUp_le : roundUp bytes ≤ 256 := by
  have hle : bytes.toNat ≤ 256 := UInt64.le_iff_toNat_le.mp hmax
  rw [UInt64.le_iff_toNat_le, roundUp_toNat hmax]
  change _ ≤ 256
  omega

theorem roundUp_pos : 1 ≤ roundUp bytes := by
  rw [UInt64.le_iff_toNat_le, roundUp_eq_cellSize hpos hmax]
  exact cellSize_pos _

/-- Rounding up does not change the free list. -/
theorem classOf_roundUp : classOf (roundUp bytes) = classOf bytes := by
  apply Fin.ext
  rw [classOf_val (roundUp_pos hpos hmax) (roundUp_le hmax), roundUp_eq_cellSize hpos hmax,
    cellSize]
  omega

theorem listIndex_eq : listIndex bytes = .ok (classOf bytes) := by
  have hindex : (roundUp bytes / 8 - 1).toNat = (classOf bytes).val := by
    have hround := roundUp_eq_cellSize hpos hmax
    have hdiv : (roundUp bytes / 8).toNat = (classOf bytes).val + 1 := by
      rw [UInt64.toNat_div, hround, cellSize]
      change 8 * ((classOf bytes).val + 1) / 8 = _
      omega
    have hone : (1 : UInt64) ≤ roundUp bytes / 8 := by
      rw [UInt64.le_iff_toNat_le, hdiv]
      exact Nat.succ_pos _
    rw [UInt64.toNat_sub_of_le _ _ hone, hdiv]
    rfl
  unfold listIndex
  rw [dif_pos (by rw [hindex]; exact (classOf bytes).isLt)]
  exact congrArg Except.ok (Fin.ext hindex)

end

/-! ## The invariant -/

/-- The address of a block of the size of free list `i`, in one of the pool's chunks. -/
def Cell (m : MemoryPool) (i : Fin 32) (p : Ptr) : Prop :=
  ∃ c ∈ m.chunks, c.data = p.piece ∧ c.size = cellSize i * 20 ∧ ∃ k < 20, p.offset = cellSize i * k

end MemoryPool

/-- Where a block may be. -/
inductive PoolPlace where
  | free (i : Fin 32)
  | client
  deriving DecidableEq

namespace MemoryPool

/-- What is where. -/
def contents (free : Fin 32 → List Ptr) (live : List Block) : PoolPlace → List Ptr
  | .free i => free i
  | .client => live.map Block.pointer

/-- A block with a client. -/
structure LiveOk (m : MemoryPool) (b : Block) : Prop where
  pos : 1 ≤ b.bytes
  small : b.bytes ≤ 256 → Cell m (classOf b.bytes) b.pointer
  large : 256 < b.bytes → b.pointer.offset = 0 ∧ ∀ c ∈ m.chunks, c.data ≠ b.pointer.piece
  there : m.heap b.pointer.piece = true

/-- What every run keeps; `free` is what the free lists lead through. -/
structure PoolOk (m : MemoryPool) (free : Fin 32 → List Ptr) : Prop where
  chains : ∀ i, Chain m.link (m.freeList i) (free i)
  cells : ∀ i, ∀ p ∈ free i, Cell m i p
  live : ∀ b ∈ m.live, LiveOk m b
  distinct : Distinct (contents free m.live)
  chunks : (m.chunks.map Chunk.data).Nodup
  heap : ∀ c ∈ m.chunks, m.heap c.data = true
  fresh : ∀ k, m.nextPiece ≤ k → m.heap k = false

variable {m m' : MemoryPool} {free : Fin 32 → List Ptr} {i j : Fin 32} {p q : Ptr} {b b' : Block}

theorem PoolOk.cell_there (h : PoolOk m free) (hp : Cell m i p) : m.heap p.piece = true := by
  obtain ⟨c, hc, hdata, -⟩ := hp
  rw [← hdata]
  exact h.heap c hc

/-- Two blocks of one chunk are of one size, and the same or apart. -/
theorem PoolOk.cells_apart (h : PoolOk m free) (hp : Cell m i p) (hq : Cell m j q)
    (hpiece : p.piece = q.piece) :
    i = j ∧ (p = q ∨ p.offset + cellSize i ≤ q.offset ∨ q.offset + cellSize i ≤ p.offset) := by
  obtain ⟨c, hc, hdata, hsize, k, -, hoffset⟩ := hp
  obtain ⟨d, hd, hdata', hsize', l, -, hoffset'⟩ := hq
  -- one piece of memory is one chunk, and a chunk has blocks of one size
  have hcd : c = d := List.inj_on_of_nodup_map h.chunks hc hd
    (hdata.trans (hpiece.trans hdata'.symm))
  subst hcd
  have hij : i = j := by
    have heq := hsize.symm.trans hsize'
    unfold cellSize at heq
    exact Fin.ext (by omega)
  subst hij
  refine ⟨rfl, ?_⟩
  -- the two are the k-th and the l-th block of the chunk
  rcases Nat.lt_trichotomy k l with hlt | rfl | hlt
  · refine .inr (.inl ?_)
    rw [hoffset, hoffset', ← Nat.mul_succ]
    exact Nat.mul_le_mul_left _ hlt
  · refine .inl ?_
    cases p
    cases q
    cases hpiece
    cases hoffset.trans hoffset'.symm
    rfl
  · refine .inr (.inr ?_)
    rw [hoffset, hoffset', ← Nat.mul_succ]
    exact Nat.mul_le_mul_left _ hlt

/-- A block covers no address of another block. -/
theorem PoolOk.not_covers (h : PoolOk m free) (hb : LiveOk m b) (hq : Cell m j q)
    (hne : q ≠ b.pointer) : ¬ b.Covers q := by
  rintro ⟨hpiece, hle, hlt⟩
  -- a block of up to 256 bytes is a cell, a larger one a piece of memory of its own
  by_cases hmax : b.bytes ≤ 256
  · have hfits := le_cellSize hb.pos hmax
    obtain ⟨rfl, heq | hbefore | hbehind⟩ := h.cells_apart (hb.small hmax) hq hpiece.symm
    · exact hne heq.symm
    · omega
    · have hpos := cellSize_pos (classOf b.bytes)
      omega
  · obtain ⟨c, hc, hdata, -⟩ := hq
    exact (hb.large (UInt64.not_le.mp hmax)).2 c hc (hdata.trans hpiece)

/-- Two blocks at different addresses have no byte in common. -/
theorem PoolOk.apart (h : PoolOk m free) (hb : LiveOk m b) (hb' : LiveOk m b')
    (hne : b.pointer ≠ b'.pointer) (q : Ptr) : ¬ (b.Covers q ∧ b'.Covers q) := by
  rintro ⟨⟨hpiece, hle, hlt⟩, ⟨hpiece', hle', hlt'⟩⟩
  -- four cases: each of the two is a cell or a piece of memory of its own
  by_cases hmax : b.bytes ≤ 256
  · by_cases hmax' : b'.bytes ≤ 256
    · have hfits := le_cellSize hb.pos hmax
      have hfits' := le_cellSize hb'.pos hmax'
      obtain ⟨hclass, heq | hbefore | hbehind⟩ := h.cells_apart (hb.small hmax) (hb'.small hmax')
        (hpiece.symm.trans hpiece')
      · exact hne heq
      · omega
      · rw [hclass] at hbehind
        omega
    · obtain ⟨c, hc, hdata, -⟩ := hb.small hmax
      exact (hb'.large (UInt64.not_le.mp hmax')).2 c hc
        (hdata.trans (hpiece.symm.trans hpiece'))
  · have hlarge := hb.large (UInt64.not_le.mp hmax)
    by_cases hmax' : b'.bytes ≤ 256
    · obtain ⟨c, hc, hdata, -⟩ := hb'.small hmax'
      exact hlarge.2 c hc (hdata.trans (hpiece'.symm.trans hpiece))
    · have hlarge' := hb'.large (UInt64.not_le.mp hmax')
      refine hne ?_
      cases hpointer : b.pointer
      cases hpointer' : b'.pointer
      rw [hpointer] at hpiece hlarge
      rw [hpointer'] at hpiece' hlarge'
      cases hpiece.symm.trans hpiece'
      cases hlarge.1.trans hlarge'.1.symm
      rfl

/-! ## What the functions do -/

/-- Nothing that a block's place depends on changes. -/
theorem LiveOk.frame (h : LiveOk m b) (hchunks : m'.chunks = m.chunks)
    (hheap : m'.heap b.pointer.piece = true) : LiveOk m' b where
  pos := h.pos
  small := by
    intro hmax
    unfold Cell
    rw [hchunks]
    exact h.small hmax
  large := by
    rw [hchunks]
    exact h.large
  there := hheap

/-- The links and the free lists change, and what is in the free lists is still a cell. -/
theorem PoolOk.relink {free' : Fin 32 → List Ptr} (h : PoolOk m free)
    (hchunks : m'.chunks = m.chunks) (hheap : m'.heap = m.heap)
    (hnext : m'.nextPiece = m.nextPiece) (hchains : ∀ i, Chain m'.link (m'.freeList i) (free' i))
    (hcells : ∀ i, ∀ p ∈ free' i, Cell m i p) (hlive : ∀ b ∈ m'.live, LiveOk m b)
    (hdistinct : Distinct (contents free' m'.live)) : PoolOk m' free' where
  chains := hchains
  cells := by
    unfold Cell
    rw [hchunks]
    exact hcells
  live := by
    intro b hb
    refine (hlive b hb).frame hchunks ?_
    rw [hheap]
    exact (hlive b hb).there
  distinct := hdistinct
  chunks := by
    rw [hchunks]
    exact h.chunks
  heap := by
    rw [hchunks, hheap]
    exact h.heap
  fresh := by
    rw [hnext, hheap]
    exact h.fresh

/-- The first block of a free list goes to a client. -/
theorem PoolOk.pop (h : PoolOk m free) (hpos : 1 ≤ b.bytes) (hmax : b.bytes ≤ 256)
    (hhead : m.freeList (classOf b.bytes) = some b.pointer) :
    ∃ free', PoolOk { m.setFreeList (classOf b.bytes) (m.link b.pointer) with
      live := b :: m.live } free' := by
  have hchain := h.chains (classOf b.bytes)
  rw [hhead] at hchain
  obtain ⟨rest, hfree, hrest⟩ := hchain.pop
  have hcell : Cell m (classOf b.bytes) b.pointer :=
    h.cells _ _ (hfree ▸ List.mem_cons_self ..)
  -- the head leaves its list and joins the blocks of the clients; nothing else moves
  have hmove : Move (contents free m.live)
      (contents (Function.update free (classOf b.bytes) rest) (b :: m.live))
      (.free (classOf b.bytes)) .client b.pointer := by
    refine ⟨fun heq => (nomatch heq), ?_, .refl _, ?_⟩
    · change (free (classOf b.bytes)).Perm (b.pointer ::
        Function.update free (classOf b.bytes) rest (classOf b.bytes))
      rw [Function.update_self, hfree]
    · intro r hr hr'
      cases r with
      | free j => exact Function.update_of_ne (fun heq => hr (congrArg _ heq)) rest free
      | client => exact absurd rfl hr'
  refine ⟨Function.update free (classOf b.bytes) rest, h.relink rfl rfl rfl ?_ ?_ ?_
    (h.distinct.move hmove)⟩
  · intro i
    change Chain m.link (Function.update m.freeList (classOf b.bytes) (m.link b.pointer) i) _
    by_cases hi : i = classOf b.bytes
    · rw [hi, Function.update_self, Function.update_self]
      exact hrest
    · rw [Function.update_of_ne hi, Function.update_of_ne hi]
      exact h.chains i
  · intro i q hq
    by_cases hi : i = classOf b.bytes
    · rw [hi, Function.update_self] at hq
      rw [hi]
      exact h.cells _ _ (hfree ▸ List.mem_cons_of_mem _ hq)
    · rw [Function.update_of_ne hi] at hq
      exact h.cells i q hq
  · intro d hd
    rcases List.mem_cons.mp hd with rfl | hold
    · exact ⟨hpos, fun _ => hcell, fun hlarge => absurd hmax (UInt64.not_le.mpr hlarge),
        h.cell_there hcell⟩
    · exact h.live d hold

/-- A client gives a block back. -/
theorem PoolOk.push (h : PoolOk m free) (hb : b ∈ m.live) (hmax : b.bytes ≤ 256) :
    ∃ free', PoolOk
      { m with
        link := Function.update m.link b.pointer (m.freeList (classOf b.bytes))
        freeList := Function.update m.freeList (classOf b.bytes) (some b.pointer)
        live := m.live.erase b } free' := by
  have hcell := (h.live b hb).small hmax
  have hclient : b.pointer ∈ contents free m.live .client := List.mem_map_of_mem hb
  -- what a client has is on no list, so the link written to it breaks none
  have hnot : ∀ i, b.pointer ∉ free i := by
    intro i hmem
    cases h.distinct.apart (.free i) .client b.pointer hmem hclient
  have hmove : Move (contents free m.live)
      (contents (Function.update free (classOf b.bytes) (b.pointer :: free (classOf b.bytes)))
        (m.live.erase b)) .client (.free (classOf b.bytes)) b.pointer := by
    refine ⟨fun heq => (nomatch heq), ?_, ?_, ?_⟩
    · exact (List.perm_cons_erase hb).map Block.pointer
    · change (Function.update free (classOf b.bytes) _ (classOf b.bytes)).Perm _
      rw [Function.update_self]
      exact .refl _
    · intro r hr hr'
      cases r with
      | free j => exact Function.update_of_ne (fun heq => hr' (congrArg _ heq)) _ free
      | client => exact absurd rfl hr
  refine ⟨_, h.relink rfl rfl rfl ?_ ?_ ?_ (h.distinct.move hmove)⟩
  · intro i
    change Chain (Function.update m.link _ _) (Function.update m.freeList (classOf b.bytes) _ i) _
    by_cases hi : i = classOf b.bytes
    · rw [hi, Function.update_self, Function.update_self]
      exact (h.chains _).push (hnot _)
    · rw [Function.update_of_ne hi, Function.update_of_ne hi]
      exact (h.chains i).update (hnot i) _
  · intro i q hq
    by_cases hi : i = classOf b.bytes
    · rw [hi, Function.update_self] at hq
      rw [hi]
      rcases List.mem_cons.mp hq with rfl | hold
      · exact hcell
      · exact h.cells _ q hold
    · rw [Function.update_of_ne hi] at hq
      exact h.cells i q hq
  · exact fun d hd => h.live d (List.mem_of_mem_erase hd)

/-- A client writes to its block, which is on no free list. -/
theorem PoolOk.write (h : PoolOk m free) (hb : b ∈ m.live) (words : Ptr → Option Ptr) :
    PoolOk { m with link := fun p => if b.Covers p then words p else m.link p } free := by
  refine h.relink rfl rfl rfl (fun i => ?_) h.cells h.live h.distinct
  refine (h.chains i).congr fun q hq => if_neg ?_
  refine h.not_covers (h.live b hb) (h.cells i q hq) ?_
  rintro rfl
  cases h.distinct.apart (.free i) .client b.pointer hq (List.mem_map_of_mem hb)

/-! ### Refilling a list -/

theorem cells_map {p : Ptr} {bytes : UInt64} (hoffset : p.offset = 0)
    (hsize : bytes.toNat = cellSize i) : ∀ q ∈ p :: MemoryPool.cells p bytes 20,
      q.piece = p.piece ∧ ∃ k < 20, q.offset = cellSize i * k := by
  intro q hq
  rcases List.mem_cons.mp hq with rfl | hq
  · exact ⟨rfl, 0, by decide, hoffset⟩
  · obtain ⟨k, hk, rfl⟩ := List.mem_map.mp hq
    have hk' := List.mem_range'_1.mp hk
    refine ⟨rfl, k, by omega, ?_⟩
    rw [Ptr.add, hoffset, hsize, Nat.zero_add]

theorem cells_nodup {p : Ptr} {bytes : UInt64} (hsize : bytes.toNat = cellSize i) :
    (p :: MemoryPool.cells p bytes 20).Nodup := by
  have hpos := cellSize_pos i
  rw [List.nodup_cons]
  constructor
  · intro hmem
    obtain ⟨k, hk, heq⟩ := List.mem_map.mp hmem
    have hk' := List.mem_range'_1.mp hk
    have hoffset : p.offset + bytes.toNat * k = p.offset := congrArg Ptr.offset heq
    have hprod : 0 < bytes.toNat * k := Nat.mul_pos (hsize ▸ hpos) hk'.1
    omega
  · refine List.Nodup.map_on (fun k _ l _ heq => ?_) List.nodup_range'
    have hoffset : p.offset + bytes.toNat * k = p.offset + bytes.toNat * l :=
      congrArg Ptr.offset heq
    exact Nat.eq_of_mul_eq_mul_left (hsize ▸ hpos) (Nat.add_left_cancel hoffset)

/-- A new chunk, with its blocks on the list. -/
theorem PoolOk.refill (h : PoolOk m free) (hempty : m.freeList i = none) {bytes : UInt64}
    (hsize : bytes.toNat = cellSize i) : ∃ p m', m.refill bytes 20 = (m', some p) ∧
      m'.live = m.live ∧ ∃ free', PoolOk (m'.setFreeList i (some p)) free' := by
  have hpos : (0 : UInt64) < bytes := by
    rw [UInt64.lt_iff_toNat_lt, hsize]
    exact cellSize_pos i
  -- the list was empty, so no block is lost when its head is overwritten
  have hfree : free i = [] := by
    have hchain := h.chains i
    rw [hempty] at hchain
    exact hchain.eq_nil
  -- the piece of memory is new to the pool and its clients
  have hfresh : m.heap m.nextPiece = false := h.fresh _ (Nat.le_refl _)
  have hnew : ∀ {j q}, Cell m j q → q.piece ≠ m.nextPiece := by
    rintro j q hq heq
    rw [← heq, h.cell_there hq] at hfresh
    cases hfresh
  have hcells := cells_map (p := ⟨m.nextPiece, 0⟩) rfl hsize
  have hnodup := cells_nodup (p := ⟨m.nextPiece, 0⟩) hsize
  have hdata : ∀ c ∈ m.chunks, c.data ≠ m.nextPiece := by
    intro c hc heq
    rw [← heq, h.heap c hc] at hfresh
    cases hfresh
  refine ⟨⟨m.nextPiece, 0⟩, _, if_pos ⟨hpos, by decide⟩, rfl,
    Function.update free i (⟨m.nextPiece, 0⟩ :: MemoryPool.cells ⟨m.nextPiece, 0⟩ bytes 20), ?_⟩
  generalize hblocks : (⟨m.nextPiece, 0⟩ : Ptr) :: MemoryPool.cells ⟨m.nextPiece, 0⟩ bytes 20 =
    blocks at *
  have hpieces : ∀ q ∈ blocks, q.piece = m.nextPiece := fun q hq => (hcells q hq).1
  -- whatever has its place is in an older piece of memory
  have hold : ∀ r, ∀ q ∈ contents free m.live r, q.piece ≠ m.nextPiece := by
    intro r q hq
    cases r with
    | free j => exact hnew (h.cells j q hq)
    | client =>
      obtain ⟨b, hb, rfl⟩ := List.mem_map.mp hq
      intro heq
      rw [← heq, (h.live b hb).there] at hfresh
      cases hfresh
  constructor
  case chains =>
    intro j
    change Chain (thread _ _ _) (Function.update m.freeList i (some ⟨m.nextPiece, 0⟩) j) _
    by_cases hj : j = i
    · rw [hj, Function.update_self, Function.update_self, ← hblocks]
      exact chain_thread (hblocks ▸ hnodup) (Function.update_self ..)
    · rw [Function.update_of_ne hj, Function.update_of_ne hj]
      -- the other lists lead through older memory, where no link was written
      refine (h.chains j).congr fun q hq => ?_
      have hq' := hnew (h.cells j q hq)
      have hnot : q ∉ blocks := fun hmem => hq' (hpieces q hmem)
      rw [← hblocks] at hnot
      obtain ⟨hne, hbehind⟩ := List.ne_and_not_mem_of_not_mem_cons hnot
      have hlink : Function.update m.link ⟨m.nextPiece, 0⟩ none q = m.link q :=
        Function.update_of_ne hne none m.link
      exact (thread_other hne hbehind).trans hlink
  case cells =>
    intro j q hq
    by_cases hj : j = i
    · rw [hj, Function.update_self] at hq
      obtain ⟨hpiece, hoffset⟩ := hcells q hq
      rw [hj]
      refine ⟨⟨m.nextPiece, bytes.toNat * 20⟩, List.mem_append_right _ (List.mem_singleton.mpr rfl),
        hpiece.symm, ?_, hoffset⟩
      rw [hsize]
    · rw [Function.update_of_ne hj] at hq
      obtain ⟨c, hc, hcell⟩ := h.cells j q hq
      exact ⟨c, List.mem_append_left _ hc, hcell⟩
  case live =>
    intro b hb
    have hb := h.live b hb
    have hne : b.pointer.piece ≠ m.nextPiece := by
      intro heq
      rw [← heq, hb.there] at hfresh
      cases hfresh
    refine ⟨hb.pos, ?_, ?_, ?_⟩
    · intro hmax
      obtain ⟨c, hc, hcell⟩ := hb.small hmax
      exact ⟨c, List.mem_append_left _ hc, hcell⟩
    · intro hlarge
      refine ⟨(hb.large hlarge).1, fun c hc => ?_⟩
      rcases List.mem_append.mp hc with hold | hnew
      · exact (hb.large hlarge).2 c hold
      · rw [List.mem_singleton.mp hnew]
        exact Ne.symm hne
    · exact (Function.update_of_ne hne true m.heap).trans hb.there
  case distinct =>
    -- the new blocks are distinct and nowhere else
    refine h.distinct.fill (p := .free i) hnodup
      (fun q hq r hr => hold r q hr (hpieces q hq)) (Function.update_self ..) ?_
    intro r hr
    cases r with
    | free j => exact Function.update_of_ne (fun heq => hr (congrArg _ heq)) blocks free
    | client => rfl
  case chunks =>
    change ((m.chunks ++ [_]).map Chunk.data).Nodup
    rw [List.map_append, List.nodup_append]
    refine ⟨h.chunks, List.nodup_singleton _, ?_⟩
    intro d hd d' hd'
    obtain ⟨c, hc, rfl⟩ := List.mem_map.mp hd
    cases List.mem_singleton.mp hd'
    exact hdata c hc
  case heap =>
    intro c hc
    rcases List.mem_append.mp hc with hold | hnew
    · exact (Function.update_of_ne (hdata c hold) true m.heap).trans (h.heap c hold)
    · rw [List.mem_singleton.mp hnew]
      exact Function.update_self ..
  case fresh =>
    intro k hk
    have hlt : m.nextPiece < k := hk
    exact (Function.update_of_ne (Nat.ne_of_gt hlt) true m.heap).trans
      (h.fresh k (Nat.le_of_lt hlt))

/-! ### `allocate` and `deallocate` -/

/-- `_M_allocate_chunk` takes a block from the list, which it has refilled if it was empty. -/
theorem PoolOk.allocateChunk (h : PoolOk m free) {bytes : UInt64} (hpos : 1 ≤ bytes)
    (hmax : bytes ≤ 256) : ∃ p m', m.allocateChunk (roundUp bytes) = .ok (m', some p) ∧
      ∃ free', PoolOk { m' with live := ⟨p, bytes⟩ :: m'.live } free' := by
  have hindex : listIndex (roundUp bytes) = .ok (classOf bytes) := by
    rw [listIndex_eq (roundUp_pos hpos hmax) (roundUp_le hmax), classOf_roundUp hpos hmax]
  unfold MemoryPool.allocateChunk
  rw [hindex]
  dsimp only
  cases hhead : m.freeList (classOf bytes) with
  -- the list is refilled, and the first of the new blocks is taken
  | none =>
    obtain ⟨p, m', hrefill, -, free', hok⟩ := h.refill hhead (roundUp_eq_cellSize hpos hmax)
    have hfirst : (m'.setFreeList (classOf bytes) (some p)).freeList (classOf bytes) = some p :=
      Function.update_self ..
    have hchain := hok.chains (classOf bytes)
    rw [hfirst] at hchain
    obtain ⟨rest, hfree, -⟩ := hchain.pop
    have hthere : m'.heap p.piece = true :=
      hok.cell_there (hok.cells (classOf bytes) p (hfree ▸ List.mem_cons_self ..))
    obtain ⟨free'', hpopped⟩ := hok.pop (b := ⟨p, bytes⟩) hpos hmax hfirst
    refine ⟨p, m'.setFreeList (classOf bytes) (m'.link p), ?_, free'', ?_⟩
    · rw [hrefill]
      dsimp only [readLink]
      rw [if_pos hthere]
    · unfold setFreeList at hpopped ⊢
      rwa [Function.update_idem] at hpopped
  -- the list has a block
  | some p =>
    have hchain := h.chains (classOf bytes)
    rw [hhead] at hchain
    obtain ⟨rest, hfree, -⟩ := hchain.pop
    have hthere : m.heap p.piece = true :=
      h.cell_there (h.cells (classOf bytes) p (hfree ▸ List.mem_cons_self ..))
    refine ⟨p, m.setFreeList (classOf bytes) (m.link p), ?_,
      h.pop (b := ⟨p, bytes⟩) hpos hmax hhead⟩
    dsimp only [readLink]
    rw [if_pos hthere]

/-- A block too large for the lists is a piece of memory of its own. -/
theorem PoolOk.operatorNew (h : PoolOk m free) {bytes : UInt64} (hlarge : 256 < bytes) :
    PoolOk { m.operatorNew.1 with live := ⟨m.operatorNew.2, bytes⟩ :: m.live } free := by
  have hfresh : m.heap m.nextPiece = false := h.fresh _ (Nat.le_refl _)
  have hne : ∀ {k}, m.heap k = true → k ≠ m.nextPiece := by
    rintro k hk rfl
    rw [hk] at hfresh
    cases hfresh
  -- the piece of memory is new, so what was there stays there
  have hkeeps : ∀ {k}, m.heap k = true → Function.update m.heap m.nextPiece true k = true :=
    fun hk => (Function.update_of_ne (hne hk) true m.heap).trans hk
  constructor
  case chains =>
    exact h.chains
  case cells =>
    exact h.cells
  case live =>
    intro b hb
    rcases List.mem_cons.mp hb with rfl | hold
    · refine ⟨?_, fun hmax => absurd hmax (UInt64.not_le.mpr hlarge), fun _ => ⟨rfl, ?_⟩,
        Function.update_self ..⟩
      · exact UInt64.le_of_lt (UInt64.lt_trans (by decide) hlarge)
      · exact fun c hc => hne (h.heap c hc)
    · exact (h.live b hold).frame rfl (hkeeps (h.live b hold).there)
  case distinct =>
    refine h.distinct.put (p := .client) (x := ⟨m.nextPiece, 0⟩) ?_ ⟨.refl _, ?_⟩
    · intro r hr
      cases r with
      | free j => exact hne (h.cell_there (h.cells j _ hr)) rfl
      | client =>
        obtain ⟨b, hb, heq⟩ := List.mem_map.mp hr
        exact hne (h.live b hb).there (congrArg Ptr.piece heq)
    · intro r hr
      cases r with
      | free => rfl
      | client => exact absurd rfl hr
  case chunks =>
    exact h.chunks
  case heap =>
    exact fun c hc => hkeeps (h.heap c hc)
  case fresh =>
    intro k hk
    have hlt : m.nextPiece < k := hk
    exact (Function.update_of_ne (Nat.ne_of_gt hlt) true m.heap).trans
      (h.fresh k (Nat.le_of_lt hlt))

theorem PoolOk.allocate (h : PoolOk m free) {bytes : UInt64} (hpos : 1 ≤ bytes) :
    ∃ p m', m.allocate bytes = .ok (m', some p) ∧
      ∃ free', PoolOk { m' with live := ⟨p, bytes⟩ :: m'.live } free' := by
  unfold MemoryPool.allocate
  split
  · rename_i hlarge
    exact ⟨_, _, rfl, free, h.operatorNew hlarge⟩
  · rename_i hsmall
    exact h.allocateChunk hpos (UInt64.not_lt.mp hsmall)

/-- A block too large for the lists is deleted. -/
theorem PoolOk.operatorDelete (h : PoolOk m free) (hb : b ∈ m.live) (hlarge : 256 < b.bytes) :
    PoolOk { m with
      heap := Function.update m.heap b.pointer.piece false
      live := m.live.erase b } free := by
  have hblock := h.live b hb
  obtain ⟨hstart, hchunks⟩ := hblock.large hlarge
  have htake : Take (contents free m.live) (contents free (m.live.erase b)) .client b.pointer := by
    refine ⟨(List.perm_cons_erase hb).map Block.pointer, fun r hr => ?_⟩
    cases r with
    | free => rfl
    | client => exact absurd rfl hr
  constructor
  case chains =>
    exact h.chains
  case cells =>
    exact h.cells
  case live =>
    intro d hd
    have hd' := h.live d (List.mem_of_mem_erase hd)
    -- the other block is at another address, so it is not in the piece deleted
    have hpointer : d.pointer ≠ b.pointer := by
      intro heq
      exact h.distinct.gone htake .client (heq ▸ List.mem_map_of_mem hd)
    have hpiece : d.pointer.piece ≠ b.pointer.piece := by
      intro heq
      by_cases hmax : d.bytes ≤ 256
      · obtain ⟨c, hc, hdata, -⟩ := hd'.small hmax
        exact hchunks c hc (hdata.trans heq)
      · have hstart' := (hd'.large (UInt64.not_le.mp hmax)).1
        apply hpointer
        cases hdp : d.pointer
        cases hbp : b.pointer
        rw [hdp] at heq hstart'
        rw [hbp] at heq hstart
        cases heq
        cases hstart.trans hstart'.symm
        rfl
    exact hd'.frame rfl ((Function.update_of_ne hpiece false m.heap).trans hd'.there)
  case distinct =>
    exact h.distinct.take htake
  case chunks =>
    exact h.chunks
  case heap =>
    exact fun c hc => (Function.update_of_ne (hchunks c hc) false m.heap).trans (h.heap c hc)
  case fresh =>
    intro k hk
    by_cases hkb : k = b.pointer.piece
    · rw [hkb]
      exact Function.update_self ..
    · exact (Function.update_of_ne hkb false m.heap).trans (h.fresh k hk)

/-- What is given back was with a client. -/
theorem PoolOk.deallocate (h : PoolOk m free) (hb : b ∈ m.live) :
    ∃ m', m.deallocate (some b.pointer) b.bytes = .ok m' ∧
      ∃ free', PoolOk { m' with live := m'.live.erase b } free' := by
  have hblock := h.live b hb
  unfold MemoryPool.deallocate
  dsimp only
  split
  · rename_i hlarge
    obtain ⟨hstart, -⟩ := hblock.large hlarge
    refine ⟨{ m with heap := Function.update m.heap b.pointer.piece false }, ?_, free,
      h.operatorDelete hb hlarge⟩
    unfold MemoryPool.operatorDelete
    rw [if_pos (by rw [hblock.there, hstart]; rfl)]
  · rename_i hsmall
    have hmax := UInt64.not_lt.mp hsmall
    obtain ⟨free', hok⟩ := h.push hb hmax
    refine ⟨{ m with
      link := Function.update m.link b.pointer (m.freeList (classOf b.bytes))
      freeList := Function.update m.freeList (classOf b.bytes) (some b.pointer) }, ?_, free', hok⟩
    rw [listIndex_eq hblock.pos hmax]
    dsimp only [writeLink]
    rw [if_pos hblock.there]
    rfl

/-! ### `release_memory` -/

/-- The loop deletes the chunks, and does nothing else. -/
theorem deleteChunks_ok {cs : List Chunk} (hnodup : (cs.map Chunk.data).Nodup)
    (hthere : ∀ c ∈ cs, m.heap c.data = true) : ∃ heap, m.deleteChunks cs = .ok { m with heap } ∧
      (∀ k, k ∉ cs.map Chunk.data → heap k = m.heap k) ∧ ∀ k, m.heap k = false → heap k = false := by
  -- on the chunks still to be deleted: they are distinct, so each is there when its turn comes
  induction cs generalizing m with
  | nil => exact ⟨m.heap, rfl, fun _ _ => rfl, fun _ hk => hk⟩
  | cons c cs ih =>
    obtain ⟨hc, hnodup⟩ := List.nodup_cons.mp hnodup
    have hdelete : m.operatorDelete ⟨c.data, 0⟩ =
        .ok { m with heap := Function.update m.heap c.data false } :=
      if_pos (by rw [hthere c (List.mem_cons_self ..)]; rfl)
    obtain ⟨heap, hok, hother, hgone⟩ := ih (m := { m with
      heap := Function.update m.heap c.data false }) hnodup (by
        intro d hd
        have hne : d.data ≠ c.data := fun heq => hc (heq ▸ List.mem_map_of_mem hd)
        exact (Function.update_of_ne hne false m.heap).trans
          (hthere d (List.mem_cons_of_mem _ hd)))
    refine ⟨heap, ?_, ?_, ?_⟩
    · unfold deleteChunks
      rw [hdelete]
      exact hok
    · intro k hk
      obtain ⟨hne, hk⟩ := List.ne_and_not_mem_of_not_mem_cons hk
      exact (hother k hk).trans (Function.update_of_ne hne false m.heap)
    · intro k hk
      apply hgone
      by_cases hkc : k = c.data
      · rw [hkc]
        exact Function.update_self ..
      · exact (Function.update_of_ne hkc false m.heap).trans hk

/-- When all free lists are empty, nothing leads into the chunks that are released. -/
theorem PoolOk.releaseMemory (h : PoolOk m free) (hempty : ∀ i, m.freeList i = none) :
    ∃ m', m.releaseMemory = .ok m' ∧
      PoolOk { m' with live := m'.live.filter fun b => 256 < b.bytes } fun _ => [] := by
  obtain ⟨heap, hok, hother, hgone⟩ := deleteChunks_ok h.chunks h.heap
  refine ⟨{ m with heap, chunks := [] }, ?_, ?_⟩
  · unfold MemoryPool.releaseMemory
    rw [hok]
  · constructor
    case chains =>
      exact hempty
    case cells =>
      exact fun _ _ hp => nomatch hp
    case live =>
      intro b hb
      obtain ⟨hb, hlarge⟩ := List.mem_filter.mp hb
      have hlarge := of_decide_eq_true hlarge
      have hblock := h.live b hb
      obtain ⟨hstart, hchunks⟩ := hblock.large hlarge
      refine ⟨hblock.pos, fun hmax => absurd hmax (UInt64.not_le.mpr hlarge),
        fun _ => ⟨hstart, fun _ hc => nomatch hc⟩, ?_⟩
      refine (hother _ fun hmem => ?_).trans hblock.there
      obtain ⟨c, hc, hdata⟩ := List.mem_map.mp hmem
      exact hchunks c hc hdata
    case distinct =>
      constructor
      · intro r
        cases r with
        | free => exact .nil
        | client => exact (List.filter_sublist.map Block.pointer).nodup (h.distinct.nodup .client)
      · intro r r' q hq hq'
        cases r with
        | free => cases hq
        | client =>
          cases r' with
          | free => cases hq'
          | client => rfl
    case chunks =>
      exact .nil
    case heap =>
      exact fun _ hc => nomatch hc
    case fresh =>
      exact fun k hk => hgone k (h.fresh k hk)

theorem deleteChunks_freeList {cs : List Chunk} (hok : m.deleteChunks cs = .ok m') :
    m'.freeList = m.freeList := by
  induction cs generalizing m with
  | nil =>
    cases hok
    rfl
  | cons c cs ih =>
    unfold deleteChunks at hok
    split at hok
    · cases hok
    · rename_i d hdelete
      refine (ih hok).trans ?_
      unfold MemoryPool.operatorDelete at hdelete
      split at hdelete
      · cases hdelete
        rfl
      · cases hdelete

end MemoryPool

end Sails.Base
