import Sails.Library.Run
import Sails.Library.Ledger
import Sails.Library.ForwardList
import Mathlib.Data.List.Nodup

/-!
# `base::MemoryPoll`

The pool keeps one free list for each multiple of 8 up to 256; the link of a free block is in the
block. A list that is empty is refilled with a chunk of 20 blocks.

- `Ptr`: an address, as a piece of memory from `operator new` and an offset into it
- `MemoryPool`: the members, the memory, and the blocks its clients have
- `allocate`, `deallocate`, `releaseMemory`: the functions
- `poolStep`: what the clients of a pool may do
-/

namespace Sails.Base

open TransitionRun
open ForwardList

/-! ## Memory -/

/-- An address: a piece of memory that `operator new` has returned, and the distance from its
start. Two pieces that exist at the same time have no byte in common. -/
structure Ptr where
  piece : Nat
  offset : Nat
  deriving DecidableEq, Repr

/-- `p + n`. -/
def Ptr.add (p : Ptr) (n : Nat) : Ptr := ⟨p.piece, p.offset + n⟩

/-- `ChunkData`: a piece of memory and its size. -/
structure Chunk where
  data : Nat
  size : Nat

/-- A block that a client has got from `allocate(bytes)` and not given back. -/
structure Block where
  pointer : Ptr
  bytes : UInt64
  deriving DecidableEq

/-- `MemoryPoll`, and the memory that it and its clients see. -/
structure MemoryPool where
  /-- `_S_free_list` -/
  freeList : Fin 32 → Option Ptr
  /-- from `start_chunk` on -/
  chunks : List Chunk
  /-- `_M_free_list_link` of the block at an address -/
  link : Ptr → Option Ptr
  /-- the pieces of memory that have not been deleted -/
  heap : Nat → Bool
  /-- the next piece of memory -/
  nextPiece : Nat
  /-- nothing reads it -/
  live : List Block

namespace MemoryPool

/-- The constructor sets `start_chunk` and `end_chunk` only, so the free lists and the memory are
what they were. -/
def construct (freeList : Fin 32 → Option Ptr) (link : Ptr → Option Ptr) : MemoryPool where
  freeList := freeList
  chunks := []
  link := link
  heap := fun _ => false
  nextPiece := 0
  live := []

/-- `_M_round_up`. -/
def roundUp (bytes : UInt64) : UInt64 := (bytes + 8 - 1) &&& ~~~(8 - 1)

/-- The index of the free list for a size. -/
def listIndex (bytes : UInt64) : Except Fault (Fin 32) :=
  let i := roundUp bytes / 8 - 1
  if h : i.toNat < 32 then .ok ⟨i.toNat, h⟩ else .error .outOfBounds

variable (m : MemoryPool)

/-- `operator new`, which does not fail. -/
def operatorNew : MemoryPool × Ptr :=
  ({ m with
      heap := Function.update m.heap m.nextPiece true
      nextPiece := m.nextPiece + 1 }, ⟨m.nextPiece, 0⟩)

/-- `operator delete`. -/
def operatorDelete (p : Ptr) : Except Fault MemoryPool :=
  -- only an address that `operator new` returned, once
  if m.heap p.piece && p.offset == 0 then
    .ok { m with heap := Function.update m.heap p.piece false }
  else .error .dangling

/-- Read the link of a block. -/
def readLink (p : Ptr) : Except Fault (Option Ptr) :=
  if m.heap p.piece then .ok (m.link p) else .error .dangling

/-- Write the link of a block. -/
def writeLink (p : Ptr) (v : Option Ptr) : Except Fault MemoryPool :=
  if m.heap p.piece then .ok { m with link := Function.update m.link p v } else .error .dangling

def setFreeList (i : Fin 32) (head : Option Ptr) : MemoryPool :=
  { m with freeList := Function.update m.freeList i head }

/-! ## Functions -/

/-- The blocks behind the first one of a chunk. -/
def cells (p : Ptr) (bytes : UInt64) (n : Nat) : List Ptr :=
  (List.range' 1 (n - 1)).map fun i => p.add (bytes.toNat * i)

/-- `_M_refill`. -/
def refill (bytes : UInt64) (n : Nat) : MemoryPool × Option Ptr :=
  if 0 < bytes ∧ 0 < n then
    -- `new ChunkData()` is not modelled: the list `chunks` holds the data
    let new := m.operatorNew
    let p := new.2
    ({ new.1 with
        chunks := m.chunks ++ [⟨p.piece, bytes.toNat * n⟩]
        -- the first link is set to null before the loop, each later one in it
        link := thread (Function.update m.link p none) p (cells p bytes n) }, some p)
  else (m, none)

/-- `_M_allocate_chunk`. -/
def allocateChunk (bytes : UInt64) : Except Fault (MemoryPool × Option Ptr) :=
  match listIndex bytes with
  | .error e => .error e
  | .ok i =>
    let found :=
      match m.freeList i with
      -- the list keeps its null head until the next assignment to it
      | none => m.refill bytes 20
      | some p => (m, some p)
    match found.2 with
    -- `_M_refill` has returned null
    | none => .ok (found.1, none)
    | some p =>
      match found.1.readLink p with
      | .error e => .error e
      | .ok next => .ok (found.1.setFreeList i next, some p)

/-- `allocate`. -/
def allocate (bytes : UInt64) : Except Fault (MemoryPool × Option Ptr) :=
  if 256 < bytes then .ok (m.operatorNew.1, some m.operatorNew.2)
  else m.allocateChunk (roundUp bytes)

/-- `deallocate`. -/
def deallocate (pointer : Option Ptr) (bytes : UInt64) : Except Fault MemoryPool :=
  match pointer with
  | none => .ok m
  | some p =>
    if 256 < bytes then m.operatorDelete p
    else
      match listIndex bytes with
      | .error e => .error e
      | .ok i =>
        -- the block is put in front, whoever has written to it
        match m.writeLink p (m.freeList i) with
        | .error e => .error e
        | .ok m => .ok (m.setFreeList i (some p))

/-- The loop of `release_memory`. -/
def deleteChunks (m : MemoryPool) : List Chunk → Except Fault MemoryPool
  | [] => .ok m
  | c :: cs =>
    match m.operatorDelete ⟨c.data, 0⟩ with
    | .error e => .error e
    | .ok m => deleteChunks m cs

/-- `release_memory`. -/
def releaseMemory : Except Fault MemoryPool :=
  match m.deleteChunks m.chunks with
  | .error e => .error e
  | .ok m => .ok { m with chunks := [] }

end MemoryPool

/-! ## Clients -/

/-- What the clients of a pool do. -/
inductive PoolAction where
  | allocate (bytes : UInt64)
  | deallocate (pointer : Option Ptr) (bytes : UInt64)
  /-- a client writes to its block -/
  | write (block : Block) (words : Ptr → Option Ptr)
  | releaseMemory

/-- The bytes of a block. -/
def Block.Covers (b : Block) (p : Ptr) : Prop :=
  p.piece = b.pointer.piece ∧ b.pointer.offset ≤ p.offset ∧ p.offset < b.pointer.offset + b.bytes.toNat

instance (b : Block) (p : Ptr) : Decidable (b.Covers p) := inferInstanceAs (Decidable (_ ∧ _ ∧ _))

/-- One action. Blocks of a chunk are not live any more when the chunk is released. -/
def poolStep (m : MemoryPool) : PoolAction → Except Fault MemoryPool
  | .allocate bytes =>
    match m.allocate bytes with
    | .error e => .error e
    | .ok (m, none) => .ok m
    | .ok (m, some p) => .ok { m with live := ⟨p, bytes⟩ :: m.live }
  | .deallocate pointer bytes =>
    match m.deallocate pointer bytes with
    | .error e => .error e
    | .ok m => .ok { m with live := pointer.elim m.live fun p => m.live.erase ⟨p, bytes⟩ }
  | .write block words =>
    .ok { m with link := fun p => if block.Covers p then words p else m.link p }
  | .releaseMemory =>
    match m.releaseMemory with
    | .error e => .error e
    | .ok m => .ok { m with live := m.live.filter fun b => 256 < b.bytes }

/-- Sizes are at least 1, and clients write to and give back what they have. -/
def ClientKeeps (m : MemoryPool) : PoolAction → Prop
  | .allocate bytes => 1 ≤ bytes
  | .deallocate pointer bytes => ∀ p ∈ pointer, ⟨p, bytes⟩ ∈ m.live
  | .write block _ => block ∈ m.live
  | .releaseMemory => True

end Sails.Base
