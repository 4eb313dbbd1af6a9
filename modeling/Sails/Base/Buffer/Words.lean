import Sails.Base.Buffer
import Sails.Library.ByteOrder

/-!
# `base::Buffer` on machine words

The class as it is compiled: both indices are `size_t` values, their arithmetic wraps, and
nothing but the code keeps them in order.

- `RawBuffer` and its methods: translated from `buffer.h`, with every assertion, every access
  checked against the vector, and the exception `resize` throws beyond `max_size()`
- `Buffer.raw`: the words of a well-formed buffer
- one lemma per method: on such words it does what the well-formed buffer's method does, unless
  the size computed in `make_space` wraps

`size_t` has 64 bits; an allocation below `max_size()` succeeds.
-/

namespace Sails.Base

open TransitionRun (Fault)
open CMemory

/-- `std::vector<char>::max_size()`, and the size no object in memory exceeds (`PTRDIFF_MAX`). -/
def maxSize : Nat := 2 ^ 63 - 1

/-- The bytes at a pointer that is passed with their number. -/
structure MemoryObject where
  bytes : Bytes
  fits : bytes.length ≤ maxSize

/-- Why a method does not return. -/
inductive Failure where
  | fault (f : Fault)
  /-- `std::length_error`, thrown before anything is changed -/
  | lengthError
  deriving DecidableEq, Repr

/-- `assert(condition)`. -/
def check (condition : Bool) : Except Failure Unit :=
  if condition then .ok () else .error (.fault .assertion)

/-- The data members of `Buffer`. -/
structure RawBuffer where
  data : Bytes
  readIndex : UInt64
  writeIndex : UInt64
  deriving DecidableEq

namespace RawBuffer

/-! ## Capacity -/

/-- `data.size()`. -/
def size (b : RawBuffer) : UInt64 := .ofNat b.data.length

def readable (b : RawBuffer) : UInt64 := b.writeIndex - b.readIndex

def writeable (b : RawBuffer) : UInt64 := b.size - b.writeIndex

/-- The initialisers of the constructor. -/
def init : RawBuffer := ⟨List.replicate Buffer.initSize 0, 0, 0⟩

/-- The constructor, with its assertions. -/
def construct : Except Failure RawBuffer := do
  check (init.readable == 0)
  check (init.writeable == .ofNat Buffer.initSize)
  return init

/-- The bytes at the positions `first` to `last`; reading outside the vector is a fault. -/
def load (b : RawBuffer) (first last : UInt64) : Except Failure Bytes :=
  if first ≤ last ∧ last.toNat ≤ b.data.length then
    .ok ((b.data.take last.toNat).drop first.toNat)
  else .error (.fault .outOfBounds)

/-- Overwrite the bytes from position `pos` on; writing a byte outside the vector is a fault. -/
def store (b : RawBuffer) (pos : UInt64) (bs : Bytes) : Except Failure RawBuffer :=
  if pos.toNat + bs.length ≤ b.data.length ∨ bs = [] then
    .ok { b with data := splice b.data pos.toNat bs }
  else .error (.fault .outOfBounds)

theorem store_nil (b : RawBuffer) (pos : UInt64) : b.store pos [] = .ok b := by
  rw [store, if_pos (.inr rfl)]
  simp [splice]

/-- `data.resize(n)`. -/
def resizeData (b : RawBuffer) (n : UInt64) : Except Failure RawBuffer :=
  if n.toNat ≤ maxSize then .ok { b with data := resize b.data n.toNat } else .error .lengthError

/-- `make_space`. -/
def makeSpace (b : RawBuffer) (len : UInt64) : Except Failure RawBuffer :=
  if b.writeable + b.readIndex < len then
    b.resizeData (b.writeIndex + len)
  else do
    -- move data to front
    let readablesize := b.readable
    -- `std::copy` to the front of the vector
    let front ← b.load b.readIndex b.writeIndex
    let b' ← b.store 0 front
    let b' : RawBuffer := ⟨b'.data, 0, 0 + readablesize⟩
    check (readablesize == b'.readable)
    return b'

/-- `ensure_writeable`. -/
def ensureWriteable (b : RawBuffer) (len : UInt64) : Except Failure RawBuffer := do
  let b' ← if b.writeable < len then b.makeSpace len else .ok b
  -- made after `make_space` as well
  check (b'.writeable ≥ len)
  return b'

/-! ## Element access -/

/-- `peek_int32`. -/
def peekInt32 (host : Endian) (b : RawBuffer) : Except Failure Int32 := do
  check (b.readable ≥ 4)
  let be32 ← b.load b.readIndex (b.readIndex + 4)
  return ⟨host.ntohl (host.load be32)⟩

/-- `retrieve_all`. -/
def retrieveAll (b : RawBuffer) : RawBuffer := ⟨b.data, 0, 0⟩

/-- `retrieve`. -/
def retrieve (b : RawBuffer) (len : UInt64) : RawBuffer :=
  if len > b.readable then b.retrieveAll else { b with readIndex := b.readIndex + len }

/-- `read_int32`: the value and the buffer without it. -/
def readInt32 (host : Endian) (b : RawBuffer) : Except Failure (Int32 × RawBuffer) := do
  let result ← b.peekInt32 host
  return (result, b.retrieve 4)

/-! ## Element modifiers -/

/-- `swap(other)`: what the two buffers hold afterwards. -/
def swap (b other : RawBuffer) : RawBuffer × RawBuffer :=
  (⟨other.data, other.readIndex, other.writeIndex⟩, ⟨b.data, b.readIndex, b.writeIndex⟩)

/-- `append(data, len)`. -/
def append (b : RawBuffer) (src : MemoryObject) : Except Failure RawBuffer := do
  let len : UInt64 := .ofNat src.bytes.length
  let b' ← b.ensureWriteable len
  let b' ← b'.store b'.writeIndex src.bytes
  return { b' with writeIndex := b'.writeIndex + len }

/-- The four bytes of `be32`, the word `append_int32` passes on. -/
def be32 (host : Endian) (x : Int32) : MemoryObject where
  bytes := host.object (host.htonl x.toUInt32)
  fits := by rw [Endian.object_htonl, length_bigEndian]; decide

/-- `append_int32`. -/
def appendInt32 (host : Endian) (b : RawBuffer) (x : Int32) : Except Failure RawBuffer :=
  b.append (be32 host x)

/-- `read(fd, len)`: the value `::read` returns and the buffer. -/
def read (b : RawBuffer) (len : UInt64) (answer : ReadAnswer len.toNat) :
    Except Failure (Int × RawBuffer) := do
  let b' ← b.ensureWriteable len
  let b' ← b'.store b'.writeIndex answer.bytes
  -- `::read` has returned `answer.count`
  if answer.count > 0 then
    return (answer.count, { b' with writeIndex := b'.writeIndex + .ofNat answer.count.toNat })
  else
    return (answer.count, b')

/-- When room for `len` bytes takes a larger vector, the new size is a `size_t` value. -/
def RoomInRange (b : RawBuffer) (len : UInt64) : Prop :=
  b.writeable + b.readIndex < len → b.writeIndex.toNat + len.toNat < 2 ^ 64

/-- The write index lies behind the end of the vector. -/
def Overrun (b : RawBuffer) : Prop := b.data.length < b.writeIndex.toNat

end RawBuffer

/-! ## The words of a well-formed buffer -/

namespace Buffer

/-- The data members a well-formed buffer consists of. -/
def raw (b : Buffer) : RawBuffer := ⟨b.data, .ofNat b.readIndex, .ofNat b.writeIndex⟩

/-- The vector is one that can exist. -/
def InMemory (b : Buffer) : Prop := b.data.length ≤ maxSize

/-- `make_space(len)` resizes the vector. -/
def Grows (b : Buffer) (len : Nat) : Prop := b.writeable + b.readIndex < len

theorem inMemory_init : init.InMemory := by
  rw [InMemory, init, List.length_replicate]
  decide

/-- The constructor passes its assertions. -/
theorem construct_eq : RawBuffer.construct = .ok init.raw := by
  have hsize : RawBuffer.init.size = .ofNat initSize := by
    rw [RawBuffer.size, RawBuffer.init, List.length_replicate]
  simp only [RawBuffer.construct, RawBuffer.readable, RawBuffer.writeable, hsize]
  rfl

theorem raw_writeable (b : Buffer) : b.raw.writeable = .ofNat b.writeable :=
  (UInt64.ofNat_sub b.writeIndex_le).symm

theorem raw_readable (b : Buffer) : b.raw.readable = .ofNat b.readable :=
  (UInt64.ofNat_sub b.readIndex_le).symm

theorem writeable_le (b : Buffer) : b.writeable ≤ b.data.length := Nat.sub_le ..

theorem raw_makeSpace_of_grows {b : Buffer} {len : Nat} (h : b.Grows len) :
    (b.makeSpace len).raw = { b.raw with data := resize b.data (b.writeIndex + len) } := by
  unfold makeSpace
  split
  · rfl
  · contradiction

theorem raw_makeSpace_of_not_grows {b : Buffer} {len : Nat} (h : ¬ b.Grows len) :
    (b.makeSpace len).raw = ⟨splice b.data 0 b.content, 0, .ofNat b.readable⟩ := by
  unfold makeSpace
  split
  · contradiction
  · rfl

section Words

variable {b : Buffer} (hb : b.InMemory)

include hb

/-- Every position of the vector is a `size_t` value. -/
theorem lt_size {n : Nat} (hn : n ≤ b.data.length) : n < UInt64.size := by
  have hmax : b.data.length ≤ 2 ^ 63 - 1 := hb
  have hsize : UInt64.size = 2 ^ 64 := rfl
  omega

theorem toNat_raw_readIndex : b.raw.readIndex.toNat = b.readIndex :=
  UInt64.toNat_ofNat_of_lt' (lt_size hb (b.readIndex_le.trans b.writeIndex_le))

theorem toNat_raw_writeIndex : b.raw.writeIndex.toNat = b.writeIndex :=
  UInt64.toNat_ofNat_of_lt' (lt_size hb b.writeIndex_le)

/-- The size `make_space` asks for, when it does not wrap. -/
theorem toNat_writeIndex_add {len : UInt64} (h : b.writeIndex + len.toNat < 2 ^ 64) :
    (b.raw.writeIndex + len).toNat = b.writeIndex + len.toNat := by
  rw [UInt64.toNat_add, toNat_raw_writeIndex hb]
  exact Nat.mod_eq_of_lt h

theorem writeable_lt_iff {len : UInt64} : b.raw.writeable < len ↔ b.writeable < len.toNat := by
  rw [raw_writeable, UInt64.ofNat_lt_iff (lt_size hb (writeable_le b))]

theorem readable_lt_iff {len : UInt64} : len > b.raw.readable ↔ len.toNat > b.readable := by
  have hle : b.readable ≤ b.data.length := (Nat.sub_le ..).trans b.writeIndex_le
  rw [gt_iff_lt, raw_readable, UInt64.ofNat_lt_iff (lt_size hb hle)]

theorem grows_iff {len : UInt64} : b.raw.writeable + b.raw.readIndex < len ↔ b.Grows len.toNat := by
  have hsum : b.raw.writeable + b.raw.readIndex = .ofNat (b.writeable + b.readIndex) := by
    rw [UInt64.ofNat_add, raw_writeable]
    rfl
  have hle : b.writeable + b.readIndex ≤ b.data.length := by
    have hr := b.readIndex_le
    have hw := b.writeIndex_le
    simp only [writeable]
    omega
  rw [hsum, UInt64.ofNat_lt_iff (lt_size hb hle), Grows]

theorem roomInRange_iff {len : UInt64} : b.raw.RoomInRange len ↔
    (b.Grows len.toNat → b.writeIndex + len.toNat < 2 ^ 64) := by
  rw [RawBuffer.RoomInRange, grows_iff hb, toNat_raw_writeIndex hb]

theorem not_roomInRange_iff {len : UInt64} : ¬ b.raw.RoomInRange len ↔
    b.Grows len.toNat ∧ 2 ^ 64 ≤ b.writeIndex + len.toNat := by
  rw [roomInRange_iff hb, Classical.not_imp, Nat.not_lt]

/-! ## Making room -/

/-- The readable region is inside the vector. -/
theorem load_content : b.raw.load b.raw.readIndex b.raw.writeIndex = .ok b.content := by
  have hle : b.raw.readIndex ≤ b.raw.writeIndex := by
    rw [UInt64.le_iff_toNat_le, toNat_raw_readIndex hb, toNat_raw_writeIndex hb]
    exact b.readIndex_le
  have hin : b.raw.writeIndex.toNat ≤ b.raw.data.length := by
    rw [toNat_raw_writeIndex hb]
    exact b.writeIndex_le
  rw [RawBuffer.load, if_pos ⟨hle, hin⟩, toNat_raw_readIndex hb, toNat_raw_writeIndex hb]
  rfl

/-- Moving the readable region to the front. -/
theorem makeSpace_raw_of_not_grows {len : UInt64} (h : ¬ b.Grows len.toNat) :
    b.raw.makeSpace len = .ok (b.makeSpace len.toNat).raw ∧ (b.makeSpace len.toNat).InMemory := by
  have hfits : 0 + b.content.length ≤ b.data.length := by
    have hw := b.writeIndex_le
    rw [length_content, readable]
    omega
  have hraw := raw_makeSpace_of_not_grows h
  constructor
  · have hstore : b.raw.store 0 b.content = .ok { b.raw with data := splice b.data 0 b.content } := by
      rw [RawBuffer.store, if_pos (.inl hfits)]
      rfl
    rw [RawBuffer.makeSpace, if_neg (mt (grows_iff hb).mp h), load_content hb, hraw, raw_readable]
    simp [hstore, bind, Except.bind, pure, Except.pure, check, RawBuffer.readable]
  · have hdata : (b.makeSpace len.toNat).data = splice b.data 0 b.content := congrArg (·.data) hraw
    rw [InMemory, hdata, length_splice hfits]
    exact hb

/-- Resizing the vector, when the new size is one a vector can have. -/
theorem makeSpace_raw_of_grows {len : UInt64} (h : b.Grows len.toNat)
    (hmax : b.writeIndex + len.toNat ≤ maxSize) :
    b.raw.makeSpace len = .ok (b.makeSpace len.toNat).raw ∧ (b.makeSpace len.toNat).InMemory := by
  have hsum := toNat_writeIndex_add hb (hmax.trans_lt (by decide : maxSize < 2 ^ 64))
  have hraw := raw_makeSpace_of_grows h
  constructor
  · rw [RawBuffer.makeSpace, if_pos ((grows_iff hb).mpr h), RawBuffer.resizeData, hsum, if_pos hmax,
      hraw]
    rfl
  · have hdata : (b.makeSpace len.toNat).data = resize b.data (b.writeIndex + len.toNat) :=
      congrArg (·.data) hraw
    rw [InMemory, hdata, length_resize]
    exact hmax

/-- `make_space` does what the well-formed buffer's method does or throws, unless the size it
computes wraps. -/
theorem makeSpace_raw {len : UInt64}
    (hfits : b.Grows len.toNat → b.writeIndex + len.toNat < 2 ^ 64) :
    (b.raw.makeSpace len = .ok (b.makeSpace len.toNat).raw ∧ (b.makeSpace len.toNat).InMemory) ∨
      b.raw.makeSpace len = .error .lengthError := by
  by_cases hgrows : b.Grows len.toNat
  · by_cases hmax : b.writeIndex + len.toNat ≤ maxSize
    · exact .inl (makeSpace_raw_of_grows hb hgrows hmax)
    -- no vector has that size, and `resize` throws
    · have hsum := toNat_writeIndex_add hb (hfits hgrows)
      right
      rw [RawBuffer.makeSpace, if_pos ((grows_iff hb).mpr hgrows), RawBuffer.resizeData, hsum,
        if_neg hmax]
  · exact .inl (makeSpace_raw_of_not_grows hb hgrows)

/-- **The wrapped size**: the vector is cut in front of the write index, and what
`writeable()` computes from that is the number of bytes asked for. -/
theorem makeSpace_raw_of_wraps {len : UInt64} (hgrows : b.Grows len.toNat)
    (hwrap : 2 ^ 64 ≤ b.writeIndex + len.toNat) :
    ∃ r, b.raw.makeSpace len = .ok r ∧ r.Overrun ∧ r.writeable = len := by
  have hlen := len.toNat_lt
  have hw := b.writeIndex_le
  have hmax : b.data.length ≤ 2 ^ 63 - 1 := hb
  -- the sum of two `size_t` values wraps once at most
  have hsum : (b.raw.writeIndex + len).toNat = b.writeIndex + len.toNat - 2 ^ 64 := by
    rw [UInt64.toNat_add, toNat_raw_writeIndex hb]
    omega
  have hle : (b.raw.writeIndex + len).toNat ≤ maxSize := by
    rw [hsum, maxSize]
    omega
  refine ⟨{ b.raw with data := resize b.data (b.raw.writeIndex + len).toNat }, ?_, ?_, ?_⟩
  · rw [RawBuffer.makeSpace, if_pos ((grows_iff hb).mpr hgrows), RawBuffer.resizeData, if_pos hle]
    rfl
  · rw [RawBuffer.Overrun, length_resize, hsum]
    have hindex := toNat_raw_writeIndex hb
    simp only [hindex]
    omega
  -- the size less the write index: the subtraction wraps back to `len`
  · rw [RawBuffer.writeable, RawBuffer.size, length_resize, UInt64.ofNat_toNat]
    exact (congrArg (· - b.raw.writeIndex) (UInt64.add_comm ..)).trans (UInt64.add_sub_cancel ..)

theorem check_writeable {len : UInt64} : check (b.raw.writeable ≥ len) =
    if len.toNat ≤ b.writeable then .ok () else .error (.fault .assertion) := by
  have hiff : b.raw.writeable ≥ len ↔ len.toNat ≤ b.writeable := by
    rw [raw_writeable, ge_iff_le, UInt64.le_ofNat_iff (lt_size hb (writeable_le b))]
  simp only [check, hiff, decide_eq_true_eq]

theorem ensureWriteable_raw {len : UInt64}
    (hfits : b.Grows len.toNat → b.writeIndex + len.toNat < 2 ^ 64) :
    (∃ b', b.ensureWriteable len.toNat = .ok b' ∧ b.raw.ensureWriteable len = .ok b'.raw ∧
      b'.InMemory) ∨ b.raw.ensureWriteable len = .error .lengthError := by
  by_cases hlt : b.writeable < len.toNat
  · rcases makeSpace_raw hb hfits with ⟨hok, hmem⟩ | hthrow
    · have hroom := le_writeable_makeSpace b len.toNat
      refine .inl ⟨b.makeSpace len.toNat, by simp [ensureWriteable, hlt, hroom], ?_, hmem⟩
      rw [RawBuffer.ensureWriteable, if_pos ((writeable_lt_iff hb).mpr hlt), hok]
      simp only [bind, Except.bind, check_writeable hmem, if_pos hroom]
      rfl
    · right
      rw [RawBuffer.ensureWriteable, if_pos ((writeable_lt_iff hb).mpr hlt), hthrow]
      rfl
  · have hroom := Nat.le_of_not_lt hlt
    refine .inl ⟨b, ensureWriteable_of_le hroom, ?_, hb⟩
    rw [RawBuffer.ensureWriteable, if_neg (mt (writeable_lt_iff hb).mp hlt)]
    simp only [bind, Except.bind, check_writeable hb, if_pos hroom]
    rfl

/-- After the wrapped size the closing assertion of `ensure_writeable` holds all the same. -/
theorem ensureWriteable_raw_of_wraps {len : UInt64} (hgrows : b.Grows len.toNat)
    (hwrap : 2 ^ 64 ≤ b.writeIndex + len.toNat) :
    ∃ r, b.raw.ensureWriteable len = .ok r ∧ r.Overrun := by
  obtain ⟨r, hok, hover, hroom⟩ := makeSpace_raw_of_wraps hb hgrows hwrap
  have hlt : b.writeable < len.toNat := Nat.lt_of_le_of_lt (Nat.le_add_right ..) hgrows
  refine ⟨r, ?_, hover⟩
  rw [RawBuffer.ensureWriteable, if_pos ((writeable_lt_iff hb).mpr hlt), hok]
  -- `writeable()` is what was asked for, though there is no room
  simp [bind, Except.bind, check, hroom, pure, Except.pure]

/-! ## Writing -/

/-- Bytes stored at the write index stay inside the vector when there is room. -/
theorem store_raw {bs : Bytes} (h : bs.length ≤ b.writeable) :
    b.raw.store b.raw.writeIndex bs = .ok { b.raw with data := splice b.data b.writeIndex bs } := by
  have hin : b.raw.writeIndex.toNat + bs.length ≤ b.raw.data.length := by
    have hw := b.writeIndex_le
    have hdata : b.raw.data.length = b.data.length := rfl
    rw [toNat_raw_writeIndex hb, hdata]
    simp only [writeable] at h
    omega
  rw [RawBuffer.store, if_pos (.inl hin), toNat_raw_writeIndex hb]
  rfl

theorem inMemory_store {bs : Bytes} (h : bs.length ≤ b.writeable) : (b.store bs h).InMemory := by
  have hw := b.writeIndex_le
  have hlen : (splice b.data b.writeIndex bs).length = b.data.length := by
    refine length_splice ?_
    simp only [writeable] at h
    omega
  rw [InMemory, store, hlen]
  exact hb

/-- Two sizes that objects in memory have add up to a `size_t` value. -/
theorem fits_of_le_maxSize {len : UInt64} (hlen : len.toNat ≤ maxSize) :
    b.writeIndex + len.toNat < 2 ^ 64 := by
  have hw := b.writeIndex_le
  have hmax : b.data.length ≤ maxSize := hb
  simp only [maxSize] at hlen hmax
  omega

theorem append_raw (src : MemoryObject) :
    (∃ b', b.append src.bytes = .ok b' ∧ b.raw.append src = .ok b'.raw ∧ b'.InMemory) ∨
      b.raw.append src = .error .lengthError := by
  have hlen : (UInt64.ofNat src.bytes.length).toNat = src.bytes.length :=
    UInt64.toNat_ofNat_of_lt' (src.fits.trans_lt (by decide))
  have hfits := fits_of_le_maxSize hb (hlen.trans_le src.fits)
  rcases ensureWriteable_raw hb fun _ => hfits with ⟨b₁, htyped, hok, hmem⟩ | hthrow
  · rw [hlen] at htyped
    obtain ⟨b₂, hspec, -, hroom⟩ := b.ensureWriteable_spec src.bytes.length
    -- the well-formed buffer makes room for all the bytes
    obtain rfl : b₁ = b₂ := Except.ok.inj (htyped.symm.trans hspec)
    refine .inl ⟨b₁.store src.bytes hroom, ?_, ?_, inMemory_store hmem hroom⟩
    · simp [append, htyped, bind, Except.bind, hroom]
    · simp only [RawBuffer.append, hok, bind, Except.bind, store_raw hmem hroom, pure, Except.pure]
      simp [raw, store]
  · right
    simp only [RawBuffer.append, hthrow, bind, Except.bind]

theorem read_raw {len : UInt64} (answer : ReadAnswer len.toNat)
    (hfits : b.Grows len.toNat → b.writeIndex + len.toNat < 2 ^ 64) :
    (∃ b', b.read len.toNat answer = .ok (b', answer.count) ∧
      b.raw.read len answer = .ok (answer.count, b'.raw) ∧ b'.InMemory) ∨
      b.raw.read len answer = .error .lengthError := by
  rcases ensureWriteable_raw hb hfits with ⟨b₁, htyped, hok, hmem⟩ | hthrow
  · obtain ⟨b₂, hspec, -, hroom⟩ := b.ensureWriteable_spec len.toNat
    obtain rfl : b₁ = b₂ := Except.ok.inj (htyped.symm.trans hspec)
    left
    cases answer with
    | failed errno =>
      refine ⟨b₁, by simp [read, htyped, bind, Except.bind, ReadAnswer.count], ?_, hmem⟩
      simp [RawBuffer.read, hok, bind, Except.bind, ReadAnswer.bytes, ReadAnswer.count,
        RawBuffer.store_nil, pure, Except.pure]
    | got bytes fits =>
      have hroom' := fits.trans hroom
      refine ⟨b₁.store bytes hroom', ?_, ?_, inMemory_store hmem hroom'⟩
      · simp [read, htyped, bind, Except.bind, hroom', ReadAnswer.count]
      · simp only [RawBuffer.read, hok, bind, Except.bind, ReadAnswer.bytes, ReadAnswer.count,
          store_raw hmem hroom', pure, Except.pure]
        cases bytes with
        -- an end of file leaves the write index, and any bytes move it
        | nil => simp [raw, store]
        | cons c cs => simp [raw, store]
  · right
    simp only [RawBuffer.read, hthrow, bind, Except.bind]

/-- A read into the overrun vector faults, or leaves it overrun. -/
theorem read_raw_of_wraps {len : UInt64} (answer : ReadAnswer len.toNat)
    (hgrows : b.Grows len.toNat) (hwrap : 2 ^ 64 ≤ b.writeIndex + len.toNat) :
    (∃ n r, b.raw.read len answer = .ok (n, r) ∧ r.Overrun) ∨
      ∃ f, b.raw.read len answer = .error (.fault f) := by
  obtain ⟨r, hok, hover⟩ := ensureWriteable_raw_of_wraps hb hgrows hwrap
  have hnil := RawBuffer.store_nil r r.writeIndex
  -- a failed call or an end of file writes nothing; a first byte goes outside the vector
  cases answer with
  | failed errno =>
    left
    refine ⟨-1, r, ?_, hover⟩
    simp [RawBuffer.read, hok, bind, Except.bind, ReadAnswer.bytes, ReadAnswer.count, hnil, pure,
      Except.pure]
  | got bytes fits =>
    cases bytes with
    | nil =>
      left
      refine ⟨0, r, ?_, hover⟩
      simp [RawBuffer.read, hok, bind, Except.bind, ReadAnswer.bytes, ReadAnswer.count, hnil, pure,
        Except.pure]
    | cons c cs =>
      right
      have hout : r.store r.writeIndex (c :: cs) = .error (.fault .outOfBounds) := by
        have hlt : r.data.length < r.writeIndex.toNat := hover
        rw [RawBuffer.store, if_neg]
        rintro (hin | hnil)
        · omega
        · cases hnil
      refine ⟨.outOfBounds, ?_⟩
      simp only [RawBuffer.read, hok, bind, Except.bind, ReadAnswer.bytes, hout]

/-! ## Taking -/

theorem retrieve_raw (len : UInt64) : b.raw.retrieve len = (b.retrieve len.toNat).raw := by
  by_cases hgt : len.toNat > b.readable
  · rw [RawBuffer.retrieve, if_pos ((readable_lt_iff hb).mpr hgt), retrieve, dif_pos hgt]
    rfl
  · rw [RawBuffer.retrieve, if_neg (mt (readable_lt_iff hb).mp hgt), retrieve, dif_neg hgt]
    simp [raw]

theorem inMemory_retrieve (len : Nat) : (b.retrieve len).InMemory := by
  have hdata : (b.retrieve len).data = b.data := by
    unfold retrieve
    split <;> rfl
  rw [InMemory, hdata]
  exact hb

/-- The word at the front of the readable region. -/
theorem peekInt32_raw (host : Endian) (h : 4 ≤ b.readable) :
    b.raw.peekInt32 host = .ok ⟨host.ntohl (host.load (b.content.take 4))⟩ := by
  have hle : b.readIndex + 4 ≤ b.data.length := by
    have hw := b.writeIndex_le
    simp only [readable] at h
    omega
  have hfour : (b.raw.readIndex + 4).toNat = b.readIndex + 4 := by
    rw [UInt64.toNat_add, toNat_raw_readIndex hb]
    exact Nat.mod_eq_of_lt (lt_size hb hle)
  have hassert : b.raw.readable ≥ 4 := by
    have hreadable : b.readable ≤ b.data.length := (Nat.sub_le ..).trans b.writeIndex_le
    rw [raw_readable, ge_iff_le, UInt64.le_ofNat_iff (lt_size hb hreadable)]
    exact h
  have hload : b.raw.load b.raw.readIndex (b.raw.readIndex + 4) = .ok (b.content.take 4) := by
    have hindex := toNat_raw_readIndex hb
    have hin : b.raw.readIndex ≤ b.raw.readIndex + 4 ∧
        (b.raw.readIndex + 4).toNat ≤ b.raw.data.length := by
      rw [UInt64.le_iff_toNat_le, hfour, hindex]
      exact ⟨Nat.le_add_right .., hle⟩
    rw [RawBuffer.load, if_pos hin, hfour, hindex, content, List.take_drop, List.take_take]
    simp only [readable] at h
    rw [Nat.min_eq_left (by omega)]
    rfl
  simp [RawBuffer.peekInt32, check, hassert, hload, bind, Except.bind, pure, Except.pure]

theorem readInt32_raw (host : Endian) (h : 4 ≤ b.readable) :
    b.raw.readInt32 host =
      .ok (⟨host.ntohl (host.load (b.content.take 4))⟩, (b.retrieve 4).raw) := by
  simp only [RawBuffer.readInt32, peekInt32_raw hb host h, bind, Except.bind, pure, Except.pure,
    retrieve_raw hb]
  rfl

end Words

end Buffer

end Sails.Base
