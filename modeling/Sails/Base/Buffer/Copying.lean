import Sails.Base.Buffer.Fifo

/-!
# `shrink` and `read_str` of `base::Buffer`

The two methods that copy the content of a buffer, each of them from an origin or with a length that
is not the content's.

- `shrink`, `readStr`: translated from `buffer.h`
- `Reachable`: the buffers a program can have made, also by requests for room that wrap
- `Bounded`: what holds of all of them
-/

namespace Sails.Base

open TransitionRun (Fault ok_of_bind)
open CMemory

namespace RawBuffer

/-- `append(p, len)` where `p` points to position `pos` of the vector of `src`. -/
def appendFrom (b src : RawBuffer) (pos len : UInt64) : Except Failure RawBuffer := do
  let b' ← b.ensureWriteable len
  let bytes ← src.load pos (pos + len)
  let b' ← b'.store b'.writeIndex bytes
  return { b' with writeIndex := b'.writeIndex + len }

/-- `shrink`. -/
def shrink (b : RawBuffer) (reserve : UInt64) : Except Failure RawBuffer := do
  let other ← construct
  let other ← other.ensureWriteable (b.readable + reserve)
  -- `writeable()` is that of the buffer itself
  let other ← other.appendFrom b b.readIndex b.writeable
  return (b.swap other).1

/-- `read_string(str, max)`: the object `str` points to, and the number returned. -/
def readString (b : RawBuffer) (str : Bytes) (max : Int32) : Except Failure (Bytes × Int) := do
  let n := toInt32 b.readable.toNat
  let read := if n > max.toInt then max.toInt else n
  -- the number is converted to `size_t`, and the source is `begin()`
  match strncpy b.data (UInt64.ofInt read).toNat with
  | .error f => .error (.fault f)
  | .ok copied =>
    if copied.length ≤ str.length then .ok (splice str 0 copied, read)
    else .error (.fault .outOfBounds)

/-- `read_str(str, max)`: the object `str` points to, and the buffer. -/
def readStr (b : RawBuffer) (str : Bytes) (max : Int32) : Except Failure (Bytes × RawBuffer) := do
  let (str, read) ← b.readString str max
  return (str, b.retrieve (UInt64.ofInt read))

/-- The readable bytes; a buffer whose indices leave its vector has none. -/
def content (b : RawBuffer) : Except Failure Bytes := b.load b.readIndex b.writeIndex

end RawBuffer

/-! ## Reachable buffers -/

/-- What the methods of the class make of constructed buffers. -/
inductive Reachable (host : Endian) : RawBuffer → Prop where
  | construct {b : RawBuffer} (h : RawBuffer.construct = .ok b) : Reachable host b
  | call {b b' : RawBuffer} (c : Call) (hb : Reachable host b) (h : c.perform host b = .ok b') :
      Reachable host b'
  | swap {b other : RawBuffer} (hb : Reachable host b) (hother : Reachable host other) :
      Reachable host (b.swap other).1
  | shrink {b b' : RawBuffer} (reserve : UInt64) (hb : Reachable host b)
      (h : b.shrink reserve = .ok b') : Reachable host b'
  | readStr {b b' : RawBuffer} (str str' : Bytes) (max : Int32) (hb : Reachable host b)
      (h : b.readStr str max = .ok (str', b')) : Reachable host b'

/-- The read index is not behind the write index, and both are positions an object can have; the
vector may have been cut in front of them. -/
structure Bounded (b : RawBuffer) : Prop where
  readIndex_le : b.readIndex ≤ b.writeIndex
  writeIndex_le : b.writeIndex.toNat ≤ maxSize
  fits : b.data.length ≤ maxSize

/-- Bytes loaded from a position on are as many as were asked for. -/
theorem RawBuffer.length_of_load {b : RawBuffer} {pos len : UInt64} {bytes : Bytes}
    (h : b.load pos (pos + len) = .ok bytes) : bytes.length = len.toNat := by
  rw [load] at h
  split_ifs at h with hin
  cases h
  obtain ⟨hle, hend⟩ := hin
  -- a sum that wrapped would be smaller than its first part
  rw [UInt64.le_iff_toNat_le, UInt64.toNat_add] at hle
  rw [UInt64.toNat_add] at hend
  have hpos := pos.toNat_lt
  have hlen := len.toNat_lt
  rw [List.length_drop, List.length_take, UInt64.toNat_add, Nat.min_eq_left hend]
  omega

namespace Bounded

variable {b b' : RawBuffer} {len : UInt64} {bs : Bytes}

theorem init : Bounded RawBuffer.init where
  readIndex_le := UInt64.le_refl 0
  writeIndex_le := Nat.zero_le _
  fits := Buffer.inMemory_init

theorem retrieveAll (h : Bounded b) : Bounded b.retrieveAll where
  readIndex_le := UInt64.le_refl 0
  writeIndex_le := Nat.zero_le _
  fits := h.fits

theorem toNat_readable (h : Bounded b) :
    b.readable.toNat = b.writeIndex.toNat - b.readIndex.toNat :=
  UInt64.toNat_sub_of_le _ _ h.readIndex_le

theorem retrieve (h : Bounded b) (len : UInt64) : Bounded (b.retrieve len) := by
  by_cases hgt : len > b.readable
  · rw [RawBuffer.retrieve, if_pos hgt]
    exact h.retrieveAll
  · rw [RawBuffer.retrieve, if_neg hgt]
    have hle : len.toNat ≤ b.writeIndex.toNat - b.readIndex.toNat := by
      rw [← h.toNat_readable]
      exact UInt64.not_lt.mp hgt
    have hindex : b.readIndex.toNat ≤ b.writeIndex.toNat := h.readIndex_le
    have hsum : (b.readIndex + len).toNat = b.readIndex.toNat + len.toNat := by
      have hmax := h.writeIndex_le
      rw [UInt64.toNat_add]
      simp only [maxSize] at hmax
      omega
    refine ⟨?_, h.writeIndex_le, h.fits⟩
    rw [UInt64.le_iff_toNat_le]
    show (b.readIndex + len).toNat ≤ b.writeIndex.toNat
    omega

/-- A run of bytes written inside the vector. -/
theorem store (h : Bounded b) (hstore : b.store b.writeIndex bs = .ok b')
    (hlen : len.toNat = bs.length) : Bounded { b' with writeIndex := b'.writeIndex + len } := by
  rw [RawBuffer.store] at hstore
  split_ifs at hstore with hin
  cases hstore
  have hfits := h.fits
  have hwrite := h.writeIndex_le
  have hindex : b.readIndex.toNat ≤ b.writeIndex.toNat := h.readIndex_le
  -- nothing written leaves the index, anything else ends inside the vector
  have hend : b.writeIndex.toNat + bs.length ≤ maxSize := by
    rcases hin with hin | rfl
    · exact hin.trans hfits
    · simpa using hwrite
  have hsum : (b.writeIndex + len).toNat = b.writeIndex.toNat + bs.length := by
    rw [UInt64.toNat_add, hlen]
    simp only [maxSize] at hend
    omega
  have hdata : (splice b.data b.writeIndex.toNat bs).length = b.data.length := by
    rcases hin with hin | rfl
    · exact length_splice hin
    · simp [splice]
  refine ⟨?_, ?_, ?_⟩
  · rw [UInt64.le_iff_toNat_le]
    show b.readIndex.toNat ≤ (b.writeIndex + len).toNat
    omega
  · show (b.writeIndex + len).toNat ≤ maxSize
    omega
  · show (splice b.data b.writeIndex.toNat bs).length ≤ maxSize
    omega

theorem makeSpace (h : Bounded b) (hok : b.makeSpace len = .ok b') : Bounded b' := by
  rw [RawBuffer.makeSpace] at hok
  split_ifs at hok with hgrows
  · rw [RawBuffer.resizeData] at hok
    split_ifs at hok with hmax
    cases hok
    exact ⟨h.readIndex_le, h.writeIndex_le, by rwa [length_resize]⟩
  · obtain ⟨front, hload, hok⟩ := ok_of_bind hok
    obtain ⟨moved, hstore, hok⟩ := ok_of_bind hok
    obtain ⟨_, -, hok⟩ := ok_of_bind hok
    cases hok
    -- the readable bytes lay inside the vector, and so do they at its front
    rw [RawBuffer.load] at hload
    split_ifs at hload with hin
    cases hload
    rw [RawBuffer.store] at hstore
    split_ifs at hstore with hfront
    cases hstore
    have hreadable := h.toNat_readable
    have hwrite := h.writeIndex_le
    refine ⟨UInt64.zero_le, ?_, ?_⟩
    · rw [UInt64.zero_add, hreadable]
      omega
    · have hfits := h.fits
      rcases hfront with hfront | hnil
      · rwa [length_splice hfront]
      · rw [hnil]
        simpa [splice] using hfits

theorem ensureWriteable (h : Bounded b) (hok : b.ensureWriteable len = .ok b') : Bounded b' := by
  rw [RawBuffer.ensureWriteable] at hok
  split_ifs at hok with hlt
  · obtain ⟨b₁, hroom, hok⟩ := ok_of_bind hok
    obtain ⟨_, -, hok⟩ := ok_of_bind hok
    cases hok
    exact h.makeSpace hroom
  · obtain ⟨b₁, hsame, hok⟩ := ok_of_bind hok
    obtain ⟨_, -, hok⟩ := ok_of_bind hok
    cases hsame
    cases hok
    exact h

theorem append (h : Bounded b) {src : MemoryObject} (hok : b.append src = .ok b') : Bounded b' := by
  obtain ⟨b₁, hroom, hok⟩ := ok_of_bind hok
  obtain ⟨b₂, hstore, hok⟩ := ok_of_bind hok
  cases hok
  refine (h.ensureWriteable hroom).store hstore ?_
  exact UInt64.toNat_ofNat_of_lt' (src.fits.trans_lt (by decide))

theorem appendFrom (h : Bounded b) {src : RawBuffer} {pos : UInt64}
    (hok : b.appendFrom src pos len = .ok b') : Bounded b' := by
  obtain ⟨b₁, hroom, hok⟩ := ok_of_bind hok
  obtain ⟨bytes, hload, hok⟩ := ok_of_bind hok
  obtain ⟨b₂, hstore, hok⟩ := ok_of_bind hok
  cases hok
  exact (h.ensureWriteable hroom).store hstore (RawBuffer.length_of_load hload).symm

theorem construct (hok : RawBuffer.construct = .ok b) : Bounded b := by
  rw [Buffer.construct_eq] at hok
  cases hok
  exact .init

theorem shrink (hok : b.shrink len = .ok b') : Bounded b' := by
  obtain ⟨b₁, hnew, hok⟩ := ok_of_bind hok
  obtain ⟨b₂, hroom, hok⟩ := ok_of_bind hok
  obtain ⟨b₃, happend, hok⟩ := ok_of_bind hok
  cases hok
  exact ((construct hnew).ensureWriteable hroom).appendFrom happend

theorem read (h : Bounded b) {answer : ReadAnswer len.toNat} {n : Int}
    (hok : b.read len answer = .ok (n, b')) : Bounded b' := by
  obtain ⟨b₁, hroom, hok⟩ := ok_of_bind hok
  obtain ⟨b₂, hstore, hok⟩ := ok_of_bind hok
  have hbounded := h.ensureWriteable hroom
  cases answer with
  | failed errno =>
    cases hok
    -- a failed call has written nothing
    rw [show (ReadAnswer.failed errno).bytes = [] from rfl, RawBuffer.store_nil] at hstore
    cases hstore
    exact hbounded
  | got bytes fits =>
    have hlen : (UInt64.ofNat bytes.length).toNat = bytes.length :=
      UInt64.toNat_ofNat_of_lt' (fits.trans_lt len.toNat_lt)
    cases bytes with
    | nil =>
      cases hok
      have hzero := hbounded.store hstore hlen
      simpa using hzero
    | cons c cs =>
      have hpos : (ReadAnswer.got (c :: cs) fits).count > 0 := Int.natCast_pos.mpr (Nat.succ_pos _)
      rw [if_pos hpos] at hok
      cases hok
      exact hbounded.store hstore hlen

/-- **Step**: every call on a bounded buffer that returns leaves it bounded. -/
theorem perform {host : Endian} (h : Bounded b) {c : Call} (hok : c.perform host b = .ok b') :
    Bounded b' := by
  cases c with
  | append src => exact h.append hok
  | appendInt32 x => exact h.append hok
  | read len answer =>
    obtain ⟨⟨n, b₁⟩, hread, hok⟩ := ok_of_bind hok
    cases hok
    exact h.read hread
  | ensureWriteable len => exact h.ensureWriteable hok
  | makeSpace len => exact h.makeSpace hok
  | retrieve len =>
    cases hok
    exact h.retrieve len
  | retrieveAll =>
    cases hok
    exact h.retrieveAll
  | readInt32 =>
    obtain ⟨⟨x, b₁⟩, hread, hok⟩ := ok_of_bind hok
    cases hok
    obtain ⟨x', -, hread⟩ := ok_of_bind hread
    cases hread
    exact h.retrieve 4
  | peekInt32 =>
    obtain ⟨x, -, hok⟩ := ok_of_bind hok
    cases hok
    exact h

end Bounded

/-- **Reachable buffers are bounded.** -/
theorem Reachable.bounded {host : Endian} {b : RawBuffer} (h : Reachable host b) : Bounded b := by
  induction h with
  | construct h => exact .construct h
  | call c _ h ih => exact ih.perform h
  | swap _ _ _ ih => exact ih
  | shrink reserve _ h _ => exact .shrink h
  | readStr str str' max _ h ih =>
    obtain ⟨⟨str₁, read⟩, -, h⟩ := ok_of_bind h
    cases h
    exact ih.retrieve _

end Sails.Base
