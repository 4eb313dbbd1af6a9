import Sails.Library.CMemory

/-!
# `base::Buffer`

The byte buffer of a connector: a vector with a read and a write index, compacted or grown
when a writer needs room. The order of the two indices and the vector's size is part of the
type, so that every operation has to restore it.

- `Buffer.content`: the readable region `data[read_index, write_index)`
- `makeSpace`, `ensureWriteable`, `append`, `read`, `retrieve`: translated from `buffer.h`
- one lemma per operation saying what becomes of the content

Vector memory is unbounded here: `resize` does not fail.
-/

namespace Sails.Base

open TransitionRun (Fault)
open CMemory

/-- What a `-1` from a system call leaves in `errno`. -/
inductive Errno where
  | eintr
  | eagain
  | other
  deriving DecidableEq, Repr

/-- The kernel's answer to `::read(fd, p, len)`: it fails, or delivers at most `len` bytes
(none of them at end of file). -/
inductive ReadAnswer (len : Nat) where
  | failed (errno : Errno)
  | got (bytes : Bytes) (fits : bytes.length ≤ len)

/-- The value `::read` returns. -/
def ReadAnswer.count {len : Nat} : ReadAnswer len → Int
  | .failed _ => -1
  | .got bytes _ => bytes.length

/-- The bytes the answer adds to the stream received. -/
def ReadAnswer.bytes {len : Nat} : ReadAnswer len → Bytes
  | .failed _ => []
  | .got bytes _ => bytes

/-- `base::Buffer`. -/
structure Buffer where
  data : Bytes
  readIndex : Nat
  writeIndex : Nat
  readIndex_le : readIndex ≤ writeIndex
  writeIndex_le : writeIndex ≤ data.length
  deriving DecidableEq

namespace Buffer

/-! ## Capacity and element access -/

/-- `init_size`. -/
def initSize : Nat := 1024

/-- The constructor: `initSize` zero bytes, nothing readable. -/
def init : Buffer where
  data := List.replicate initSize 0
  readIndex := 0
  writeIndex := 0
  readIndex_le := Nat.le_refl 0
  writeIndex_le := Nat.zero_le _

def readable (b : Buffer) : Nat := b.writeIndex - b.readIndex

def writeable (b : Buffer) : Nat := b.data.length - b.writeIndex

/-- The memory that starts at `peek()` and ends with the vector. -/
def peek (b : Buffer) : Bytes := b.data.drop b.readIndex

/-- The readable region `data[read_index, write_index)`. -/
def content (b : Buffer) : Bytes := (b.data.take b.writeIndex).drop b.readIndex

@[simp] theorem content_init : init.content = [] := by simp [content, init]

@[simp] theorem length_content (b : Buffer) : b.content.length = b.readable := by
  simp [content, readable, Nat.min_eq_left b.writeIndex_le]

theorem content_eq_take_peek (b : Buffer) : b.content = b.peek.take b.readable := by
  rw [content, peek, readable, List.drop_take]

theorem readable_le_length_peek (b : Buffer) : b.readable ≤ b.peek.length := by
  have := b.writeIndex_le
  simp only [readable, peek, List.length_drop]
  omega

/-! ## Making room -/

/-- `make_space`: grow the vector when even the bytes in front of the readable region would
not make enough room, else move the readable region to the front. -/
def makeSpace (b : Buffer) (len : Nat) : Buffer :=
  if h : b.writeable + b.readIndex < len then
    { b with
      data := resize b.data (b.writeIndex + len)
      writeIndex_le := by simp }
  else
    { data := splice b.data 0 b.content
      readIndex := 0
      writeIndex := b.readable
      readIndex_le := Nat.zero_le _
      writeIndex_le := by
        have hle := b.readable_le_length_peek
        simp only [peek, List.length_drop] at hle
        rw [length_splice (by rw [length_content]; omega)]
        omega }

/-- `ensure_writeable`, with its closing assertion. -/
def ensureWriteable (b : Buffer) (len : Nat) : Except Fault Buffer :=
  let b' := if b.writeable < len then b.makeSpace len else b
  if len ≤ b'.writeable then .ok b' else .error .assertion

@[simp] theorem content_makeSpace (b : Buffer) (len : Nat) : (b.makeSpace len).content = b.content := by
  unfold makeSpace
  split
  · simp only [content]
    rw [take_resize b.writeIndex_le (Nat.le_add_right _ _)]
  · have htake : (splice b.data 0 b.content).take (0 + b.content.length) =
        b.data.take 0 ++ b.content := take_splice (Nat.zero_le _)
    rw [Nat.zero_add, length_content, List.take_zero, List.nil_append] at htake
    simp only [content] at htake ⊢
    rw [htake, List.drop_zero]

theorem le_writeable_makeSpace (b : Buffer) (len : Nat) : len ≤ (b.makeSpace len).writeable := by
  unfold makeSpace
  split
  · simp [writeable]
  · rename_i hroom
    have hr := b.readIndex_le
    have hw := b.writeIndex_le
    have hlen : (splice b.data 0 b.content).length = b.data.length := by
      refine length_splice ?_
      rw [length_content, readable]
      omega
    simp only [writeable, hlen]
    simp only [writeable] at hroom
    simp only [readable]
    omega

/-- `ensure_writeable` never fails its assertion and keeps the content. -/
theorem ensureWriteable_spec (b : Buffer) (len : Nat) :
    ∃ b', b.ensureWriteable len = .ok b' ∧ b'.content = b.content ∧ len ≤ b'.writeable := by
  unfold ensureWriteable
  by_cases hlt : b.writeable < len
  · exact ⟨b.makeSpace len, by simp [hlt, le_writeable_makeSpace], content_makeSpace b len,
      le_writeable_makeSpace b len⟩
  · exact ⟨b, by simp [hlt], rfl, by omega⟩

theorem ensureWriteable_of_le {b : Buffer} {len : Nat} (h : len ≤ b.writeable) :
    b.ensureWriteable len = .ok b := by
  simp [ensureWriteable, Nat.not_lt.mpr h, h]

/-! ## Element modifiers -/

/-- Store bytes at the write index and move it behind them, as `append` and a successful
`::read` do once there is room. -/
def store (b : Buffer) (bs : Bytes) (h : bs.length ≤ b.writeable) : Buffer where
  data := splice b.data b.writeIndex bs
  readIndex := b.readIndex
  writeIndex := b.writeIndex + bs.length
  readIndex_le := Nat.le_add_right_of_le b.readIndex_le
  writeIndex_le := by
    have := b.writeIndex_le
    simp only [writeable] at h
    rw [length_splice] <;> omega

theorem content_store (b : Buffer) (bs : Bytes) (h : bs.length ≤ b.writeable) :
    (b.store bs h).content = b.content ++ bs := by
  simp only [content, store]
  rw [take_splice b.writeIndex_le, List.drop_append_of_le_length]
  rw [List.length_take, Nat.min_eq_left b.writeIndex_le]
  exact b.readIndex_le

/-- `append`; storing outside the vector is a fault. -/
def append (b : Buffer) (bs : Bytes) : Except Fault Buffer := do
  let b' ← b.ensureWriteable bs.length
  if h : bs.length ≤ b'.writeable then .ok (b'.store bs h) else .error .outOfBounds

theorem append_spec (b : Buffer) (bs : Bytes) :
    ∃ b', b.append bs = .ok b' ∧ b'.content = b.content ++ bs := by
  obtain ⟨b₁, hok, hcontent, hroom⟩ := b.ensureWriteable_spec bs.length
  refine ⟨b₁.store bs hroom, ?_, by rw [content_store, hcontent]⟩
  simp [append, hok, bind, Except.bind, hroom]

/-- `read(fd, len)`: make room for `len` bytes and let the kernel fill it; the result is
what `::read` returned. -/
def read (b : Buffer) (len : Nat) (answer : ReadAnswer len) : Except Fault (Buffer × Int) := do
  let b' ← b.ensureWriteable len
  match answer with
  | .failed _ => .ok (b', -1)
  | .got bytes _ =>
    if h : bytes.length ≤ b'.writeable then .ok (b'.store bytes h, bytes.length)
    else .error .outOfBounds

theorem read_spec (b : Buffer) (len : Nat) (answer : ReadAnswer len) :
    ∃ b', b.read len answer = .ok (b', answer.count) ∧ b'.content = b.content ++ answer.bytes := by
  obtain ⟨b₁, hok, hcontent, hroom⟩ := b.ensureWriteable_spec len
  cases answer with
  | failed errno =>
    exact ⟨b₁, by simp [read, hok, bind, Except.bind, ReadAnswer.count],
      by simp [ReadAnswer.bytes, hcontent]⟩
  | got bytes fits =>
    have hfit := fits.trans hroom
    refine ⟨b₁.store bytes hfit, ?_, by rw [content_store, hcontent, ReadAnswer.bytes]⟩
    simp [read, hok, bind, Except.bind, hfit, ReadAnswer.count]

/-- A read into a buffer that has room stores the bytes at the write index. -/
theorem read_of_le {b : Buffer} {len : Nat} (h : len ≤ b.writeable) {bytes : Bytes}
    (fits : bytes.length ≤ len) :
    b.read len (.got bytes fits) = .ok (b.store bytes (fits.trans h), bytes.length) := by
  simp [read, ensureWriteable_of_le h, bind, Except.bind, fits.trans h]

/-- `retrieve_all`. -/
def retrieveAll (b : Buffer) : Buffer where
  data := b.data
  readIndex := 0
  writeIndex := 0
  readIndex_le := Nat.le_refl 0
  writeIndex_le := Nat.zero_le _

/-- `retrieve`. -/
def retrieve (b : Buffer) (len : Nat) : Buffer :=
  if h : len > b.readable then b.retrieveAll
  else
    { b with
      readIndex := b.readIndex + len
      readIndex_le := by
        have := b.readIndex_le
        simp only [readable] at h
        omega }

@[simp] theorem content_retrieveAll (b : Buffer) : b.retrieveAll.content = [] := by
  simp [content, retrieveAll]

@[simp] theorem content_retrieve (b : Buffer) (len : Nat) :
    (b.retrieve len).content = b.content.drop len := by
  unfold retrieve
  split
  · rename_i hgt
    rw [content_retrieveAll, List.drop_of_length_le (by rw [length_content]; omega)]
  · simp [content, List.drop_drop]

end Buffer

end Sails.Base
