import Sails.Base.Buffer.Copying

/-!
# `shrink` copies `writeable()` bytes

- `shrink_eq`, `shrink_raw`: what `shrink` makes of a buffer
- `shrink_reads_inside`: it reads inside the old vector, whatever it copies
- `shrink_keeps_iff`: the bytes copied are the content when as many are writeable as are readable
-/

namespace Sails.Base

open TransitionRun (Fault)
open CMemory

/-! ## Empty buffers -/

namespace RawBuffer

theorem initSize_le : Buffer.initSize ≤ maxSize := by decide

/-- An empty buffer with room for `cap` bytes. -/
def blank (cap : Nat) : RawBuffer := ⟨List.replicate cap 0, 0, 0⟩

theorem writeable_blank (cap : Nat) : (blank cap).writeable = .ofNat cap := by
  rw [writeable, size, blank, List.length_replicate]
  exact UInt64.sub_zero _

section Blank

variable {cap : Nat} (hcap : cap ≤ maxSize)

include hcap

theorem writeable_blank_lt_iff {len : UInt64} : (blank cap).writeable < len ↔ cap < len.toNat := by
  rw [writeable_blank, UInt64.ofNat_lt_iff (hcap.trans_lt (by decide))]

/-- Room in an empty buffer: its vector becomes one of zeros, if there can be one of that size. -/
theorem ensureWriteable_blank (len : UInt64) :
    (blank cap).ensureWriteable len =
      if len.toNat ≤ maxSize then .ok (blank (max cap len.toNat)) else .error .lengthError := by
  have hpass {n : Nat} (hn : n ≤ maxSize) (hle : len.toNat ≤ n) :
      check ((blank n).writeable ≥ len) = .ok () := by
    have hroom : ¬(blank n).writeable < len := by
      rw [writeable_blank_lt_iff hn]
      omega
    rw [check, if_pos (decide_eq_true (UInt64.not_lt.mp hroom))]
  rw [ensureWriteable]
  by_cases hlt : cap < len.toNat
  · have hgrows : (blank cap).writeable + (blank cap).readIndex < len := by
      rw [show (blank cap).readIndex = 0 from rfl, UInt64.add_zero]
      exact (writeable_blank_lt_iff hcap).mpr hlt
    rw [if_pos ((writeable_blank_lt_iff hcap).mpr hlt), makeSpace, if_pos hgrows, resizeData,
      show (blank cap).writeIndex + len = len from UInt64.zero_add len]
    split_ifs with hmax
    · have hzeros : resize (blank cap).data len.toNat = List.replicate len.toNat 0 := by
        rw [blank, resize_of_length_le (by rw [List.length_replicate]; exact hlt.le),
          List.length_replicate, List.replicate_append_replicate, Nat.add_sub_cancel' hlt.le]
      rw [hzeros, Nat.max_eq_right hlt.le]
      show (do check ((blank len.toNat).writeable ≥ len); return blank len.toNat) = _
      rw [hpass hmax (Nat.le_refl _)]
      rfl
    · rfl
  · have hle := Nat.le_of_not_lt hlt
    rw [if_neg (mt (writeable_blank_lt_iff hcap).mp hlt), if_pos (hle.trans hcap),
      Nat.max_eq_left hle]
    show (do check ((blank cap).writeable ≥ len); return blank cap) = _
    rw [hpass hcap hle]
    rfl

omit hcap in
theorem store_blank {bytes : Bytes} (h : bytes.length ≤ cap) :
    (blank cap).store 0 bytes = .ok ⟨splice (List.replicate cap 0) 0 bytes, 0, 0⟩ := by
  have hin : (0 : UInt64).toNat + bytes.length ≤ (blank cap).data.length := by
    rw [blank, List.length_replicate]
    exact (Nat.zero_add _).trans_le h
  rw [store, if_pos (.inl hin)]
  rfl

/-- Bytes appended to an empty buffer that has room for them. -/
theorem append_blank {src : MemoryObject} (h : src.bytes.length ≤ cap) :
    (blank cap).append src =
      .ok ⟨splice (List.replicate cap 0) 0 src.bytes, 0, .ofNat src.bytes.length⟩ := by
  have hlen : (UInt64.ofNat src.bytes.length).toNat = src.bytes.length :=
    UInt64.toNat_ofNat_of_lt' (src.fits.trans_lt (by decide))
  simp only [append, ensureWriteable_blank hcap, hlen, if_pos src.fits, Nat.max_eq_left h, bind,
    Except.bind]
  rw [show (blank cap).writeIndex = 0 from rfl, store_blank h]
  simp only [pure, Except.pure, UInt64.zero_add]

/-- Bytes of another buffer appended to an empty one. -/
theorem appendFrom_blank {src : RawBuffer} {pos len : UInt64} {bytes : Bytes}
    (hload : src.load pos (pos + len) = .ok bytes) (hlen : len.toNat ≤ maxSize) :
    (blank cap).appendFrom src pos len =
      .ok ⟨splice (List.replicate (max cap len.toNat) 0) 0 bytes, 0, len⟩ := by
  have hlength := length_of_load hload
  have hstore := store_blank (hlength.trans_le (Nat.le_max_right cap len.toNat))
  simp only [appendFrom, ensureWriteable_blank hcap, if_pos hlen, bind, Except.bind, hload]
  rw [show (blank (max cap len.toNat)).writeIndex = 0 from rfl, hstore]
  simp only [pure, Except.pure, UInt64.zero_add]

/-- More bytes than a vector can have. -/
theorem appendFrom_blank_of_lt {src : RawBuffer} {pos len : UInt64} (hlen : maxSize < len.toNat) :
    (blank cap).appendFrom src pos len = .error .lengthError := by
  simp only [appendFrom, ensureWriteable_blank hcap, if_neg (Nat.not_le.mpr hlen), bind,
    Except.bind]

end Blank

/-- `swap` hands over all members. -/
theorem bind_swap (b : RawBuffer) (x : Except Failure RawBuffer) :
    (do let other ← x; return (b.swap other).1) = x := by
  cases x with
  | error e => rfl
  | ok other => rfl

/-- `shrink`: an empty buffer with the room asked for, and what is appended to it. -/
theorem shrink_eq (b : RawBuffer) (reserve : UInt64) :
    b.shrink reserve =
      if (b.readable + reserve).toNat ≤ maxSize then
        (blank (max Buffer.initSize (b.readable + reserve).toNat)).appendFrom b b.readIndex
          b.writeable
      else .error .lengthError := by
  have hnew : construct = .ok (blank Buffer.initSize) := Buffer.construct_eq
  have hbind (x : RawBuffer) (f : RawBuffer → Except Failure RawBuffer) : (.ok x >>= f) = f x := rfl
  rw [shrink, hnew, hbind, ensureWriteable_blank initSize_le]
  split_ifs
  · rw [hbind]
    exact bind_swap b _
  · rfl

/-- In a vector that was cut in front of the write index `writeable()` wraps. -/
theorem lt_writeable_of_overrun {b : RawBuffer} (hb : Bounded b) (h : b.Overrun) :
    maxSize < b.writeable.toNat := by
  have hwrite := hb.writeIndex_le
  have hover : b.data.length < b.writeIndex.toNat := h
  have hsize : b.size.toNat = b.data.length :=
    UInt64.toNat_ofNat_of_lt' (hb.fits.trans_lt (by decide))
  rw [writeable, UInt64.toNat_sub, hsize]
  simp only [maxSize] at hwrite ⊢
  omega

theorem shrink_of_overrun {b : RawBuffer} (hb : Bounded b) (h : b.Overrun) (reserve : UInt64) :
    b.shrink reserve = .error .lengthError := by
  rw [shrink_eq]
  split_ifs with hroom
  · exact appendFrom_blank_of_lt (max_le initSize_le hroom) (lt_writeable_of_overrun hb h)
  · rfl

end RawBuffer

/-- Bounded words whose indices stay in the vector are those of a well-formed buffer. -/
theorem Bounded.exists_raw {b : RawBuffer} (hb : Bounded b) (h : ¬b.Overrun) :
    ∃ b₀ : Buffer, b = b₀.raw ∧ b₀.InMemory := by
  refine ⟨⟨b.data, b.readIndex.toNat, b.writeIndex.toNat, hb.readIndex_le, Nat.le_of_not_lt h⟩, ?_,
    hb.fits⟩
  simp [Buffer.raw]

namespace Buffer

variable {b : Buffer} (hb : b.InMemory)

include hb

theorem toNat_raw_readable : b.raw.readable.toNat = b.readable := by
  have hle : b.readable ≤ b.data.length := (Nat.sub_le ..).trans b.writeIndex_le
  rw [raw_readable]
  exact UInt64.toNat_ofNat_of_lt' (lt_size hb hle)

theorem toNat_raw_writeable : b.raw.writeable.toNat = b.writeable := by
  rw [raw_writeable]
  exact UInt64.toNat_ofNat_of_lt' (lt_size hb (writeable_le b))

/-- `shrink` of a well-formed buffer makes the bytes from `peek()` on, as many as are writeable, the
content. -/
theorem shrink_raw {reserve : UInt64} (hroom : (b.raw.readable + reserve).toNat ≤ maxSize) :
    b.raw.shrink reserve = .ok
      ⟨splice (List.replicate (max (max initSize (b.raw.readable + reserve).toNat) b.writeable) 0) 0
        (b.peek.take b.writeable), 0, b.raw.writeable⟩ := by
  have hread := toNat_raw_readIndex hb
  have hwrite := toNat_raw_writeable hb
  have hend : b.readIndex + b.writeable ≤ b.data.length := by
    have hr := b.readIndex_le
    have hw := b.writeIndex_le
    rw [writeable]
    omega
  have hsum : (b.raw.readIndex + b.raw.writeable).toNat = b.readIndex + b.writeable := by
    rw [UInt64.toNat_add, hread, hwrite]
    exact Nat.mod_eq_of_lt (lt_size hb hend)
  -- the bytes copied lie inside the vector
  have hload : b.raw.load b.raw.readIndex (b.raw.readIndex + b.raw.writeable) =
      .ok (b.peek.take b.writeable) := by
    have hin : b.raw.readIndex ≤ b.raw.readIndex + b.raw.writeable ∧
        (b.raw.readIndex + b.raw.writeable).toNat ≤ b.raw.data.length := by
      rw [UInt64.le_iff_toNat_le, hsum, hread]
      exact ⟨Nat.le_add_right .., hend⟩
    rw [RawBuffer.load, if_pos hin, hsum, hread, List.drop_take, Nat.add_sub_cancel_left]
    rfl
  have hmax : b.raw.writeable.toNat ≤ maxSize := hwrite.trans_le ((writeable_le b).trans hb)
  rw [RawBuffer.shrink_eq, if_pos hroom,
    RawBuffer.appendFrom_blank (max_le RawBuffer.initSize_le hroom) hload hmax, hwrite]

end Buffer

/-- **`shrink` keeps the content**, and leaves room for `reserve` bytes more. A read outside the old
vector would be a fault. -/
def ShrinkKeeps (b : RawBuffer) (reserve : UInt64) : Prop :=
  ∃ q b', b.content = .ok q ∧ b.shrink reserve = .ok b' ∧ b'.content = .ok q ∧
    reserve ≤ b'.writeable

/-- The content of a buffer filled from the front. -/
theorem content_splice_zeros {cap : Nat} {len : UInt64} {bytes : Bytes}
    (hlen : bytes.length = len.toNat) (hcap : len.toNat ≤ cap) :
    (⟨splice (List.replicate cap 0) 0 bytes, 0, len⟩ : RawBuffer).content = .ok bytes := by
  have hfits : 0 + bytes.length ≤ (List.replicate cap (0 : UInt8)).length := by
    rw [List.length_replicate]
    omega
  have htake : (splice (List.replicate cap 0) 0 bytes).take (0 + bytes.length) = bytes :=
    take_splice (Nat.zero_le _)
  rw [Nat.zero_add, hlen] at htake
  have hin : len.toNat ≤ (splice (List.replicate cap 0) 0 bytes).length := by
    rwa [length_splice hfits, List.length_replicate]
  rw [RawBuffer.content, RawBuffer.load, if_pos ⟨UInt64.zero_le, hin⟩]
  show Except.ok (((splice (List.replicate cap 0) 0 bytes).take len.toNat).drop 0) = .ok bytes
  rw [htake, List.drop_zero]

theorem toNat_writeable_splice_zeros {cap : Nat} {len : UInt64} {bytes : Bytes}
    (hlen : bytes.length = len.toNat) (hcap : len.toNat ≤ cap) (hmax : cap ≤ maxSize) :
    (⟨splice (List.replicate cap 0) 0 bytes, 0, len⟩ : RawBuffer).writeable.toNat =
      cap - len.toNat := by
  have hfits : 0 + bytes.length ≤ (List.replicate cap (0 : UInt8)).length := by
    rw [List.length_replicate]
    omega
  have hsize : (⟨splice (List.replicate cap 0) 0 bytes, 0, len⟩ : RawBuffer).size = .ofNat cap := by
    rw [RawBuffer.size, length_splice hfits, List.length_replicate]
  have hcapNat : (UInt64.ofNat cap).toNat = cap :=
    UInt64.toNat_ofNat_of_lt' (hmax.trans_lt (by decide))
  have hle : len ≤ .ofNat cap := by
    rw [UInt64.le_iff_toNat_le, hcapNat]
    exact hcap
  rw [RawBuffer.writeable, hsize, UInt64.toNat_sub_of_le _ _ hle, hcapNat]

theorem shrinkKeeps_raw_iff {b : Buffer} (hb : b.InMemory) (reserve : UInt64) :
    ShrinkKeeps b.raw reserve ↔
      b.writeable = b.readable ∧ b.readable + reserve.toNat ≤ maxSize := by
  have hread := b.toNat_raw_readable hb
  have hwrite := b.toNat_raw_writeable hb
  have hsum : (b.raw.readable + reserve).toNat = (b.readable + reserve.toNat) % 2 ^ 64 := by
    rw [UInt64.toNat_add, hread]
  have hreserve := reserve.toNat_lt
  have hsmall : b.writeable ≤ maxSize := (b.writeable_le).trans hb
  by_cases hroom : (b.raw.readable + reserve).toNat ≤ maxSize
  · have hshrink := b.shrink_raw hb hroom
    generalize hcap : max (max Buffer.initSize (b.raw.readable + reserve).toNat) b.writeable = cap
      at hshrink
    have hcapMax : cap ≤ maxSize := by
      rw [← hcap]
      exact max_le (max_le RawBuffer.initSize_le hroom) hsmall
    -- as many bytes are copied as are writeable
    have hlen : (b.peek.take b.writeable).length = b.raw.writeable.toNat := by
      have hr := b.readIndex_le
      have hw := b.writeIndex_le
      rw [hwrite, List.length_take, Buffer.peek, List.length_drop, Buffer.writeable]
      omega
    have hle : b.raw.writeable.toNat ≤ cap := by
      rw [hwrite, ← hcap]
      exact Nat.le_max_right ..
    have hcontent := content_splice_zeros hlen hle
    have hleft := toNat_writeable_splice_zeros hlen hle hcapMax
    constructor
    · rintro ⟨q, b', hq, hok, hq', hreserved⟩
      rw [hshrink] at hok
      cases hok
      have hsame : b.content = b.peek.take b.writeable := by
        have hold : b.raw.content = .ok b.content := b.load_content hb
        rw [hold] at hq
        rw [hcontent] at hq'
        exact Except.ok.inj (hq.trans hq'.symm)
      have hequal : b.writeable = b.readable := by
        have hlengths := congrArg List.length hsame
        rw [b.length_content, hlen, hwrite] at hlengths
        exact hlengths.symm
      refine ⟨hequal, ?_⟩
      -- had the sum wrapped, `reserve` would be more than a vector has
      rw [UInt64.le_iff_toNat_le, hleft] at hreserved
      simp only [maxSize] at hcapMax hroom hsmall ⊢
      omega
    · rintro ⟨hequal, hfits⟩
      refine ⟨b.content, _, b.load_content hb, hshrink, ?_, ?_⟩
      · rw [hcontent, hequal, ← b.content_eq_take_peek]
      · rw [UInt64.le_iff_toNat_le, hleft, hwrite, ← hcap, hsum]
        simp only [maxSize] at hfits
        omega
  · constructor
    · rintro ⟨q, b', -, hok, -⟩
      rw [RawBuffer.shrink_eq, if_neg hroom] at hok
      cases hok
    · rintro ⟨-, hfits⟩
      refine absurd ?_ hroom
      simp only [maxSize] at hfits ⊢
      omega

/-- `shrink` reads inside the old vector only, whatever it copies. -/
theorem shrink_reads_inside {host : Endian} {b : RawBuffer} (hb : Reachable host b)
    (reserve : UInt64) (f : Fault) : b.shrink reserve ≠ .error (.fault f) := by
  by_cases hover : b.Overrun
  · rw [RawBuffer.shrink_of_overrun hb.bounded hover]
    simp
  · obtain ⟨b₀, rfl, hmem⟩ := hb.bounded.exists_raw hover
    by_cases hroom : (b₀.raw.readable + reserve).toNat ≤ maxSize
    · rw [b₀.shrink_raw hmem hroom]
      simp
    · rw [RawBuffer.shrink_eq, if_neg hroom]
      simp

/-- **When `shrink` keeps the content**: of every buffer that can be reached, when as many bytes
are writeable as are readable, and there can be a vector with the room asked for. -/
theorem shrink_keeps_iff {host : Endian} {b : RawBuffer} (hb : Reachable host b)
    (reserve : UInt64) :
    ShrinkKeeps b reserve ↔
      b.writeable = b.readable ∧ b.readable.toNat + reserve.toNat ≤ maxSize := by
  by_cases hover : b.Overrun
  -- no content, and more writeable than there can be readable
  · have hwrite := RawBuffer.lt_writeable_of_overrun hb.bounded hover
    have hread : b.readable.toNat ≤ maxSize := by
      rw [hb.bounded.toNat_readable]
      exact (Nat.sub_le ..).trans hb.bounded.writeIndex_le
    constructor
    · rintro ⟨q, b', -, hok, -⟩
      rw [RawBuffer.shrink_of_overrun hb.bounded hover] at hok
      cases hok
    · rintro ⟨hequal, -⟩
      rw [hequal] at hwrite
      exact absurd hread (Nat.not_le.mpr hwrite)
  · obtain ⟨b₀, rfl, hmem⟩ := hb.bounded.exists_raw hover
    have hread := b₀.toNat_raw_readable hmem
    rw [shrinkKeeps_raw_iff hmem, hread, ← UInt64.toNat_inj, hread, b₀.toNat_raw_writeable hmem]

/-- A buffer that is half full. -/
theorem shrink_keeps_iff_half :
    ShrinkKeeps ⟨splice (List.replicate 1024 0) 0 (List.replicate 512 7), 0, 512⟩ 100 := by
  have hlen : (List.replicate 512 (7 : UInt8)).length = 512 := List.length_replicate
  have hreach : Reachable .little
      ⟨splice (List.replicate 1024 0) 0 (List.replicate 512 7), 0, 512⟩ := by
    have hfits : (List.replicate 512 (7 : UInt8)).length ≤ maxSize := by rw [hlen]; decide
    have happend : RawBuffer.init.append ⟨List.replicate 512 7, hfits⟩ = _ :=
      RawBuffer.append_blank RawBuffer.initSize_le (by rw [hlen]; decide)
    rw [hlen] at happend
    exact .call (.append ⟨List.replicate 512 7, hfits⟩) (.construct Buffer.construct_eq) happend
  have hwrite : (⟨splice (List.replicate 1024 0) 0 (List.replicate 512 7), 0, 512⟩ :
      RawBuffer).writeable.toNat = 1024 - 512 :=
    toNat_writeable_splice_zeros hlen (by decide) (by decide)
  refine (shrink_keeps_iff hreach 100).mpr ⟨?_, by decide⟩
  rw [← UInt64.toNat_inj, hwrite]
  rfl

/-- A constructed buffer: `shrink(0)` makes all its zeros readable. -/
theorem shrink_constructed_not_kept :
    Reachable .little RawBuffer.init ∧ ¬ShrinkKeeps RawBuffer.init 0 := by
  refine ⟨.construct Buffer.construct_eq, fun hkeeps => ?_⟩
  obtain ⟨hequal, -⟩ := (shrinkKeeps_raw_iff Buffer.inMemory_init 0).mp hkeeps
  have hwrite : Buffer.init.writeable = 1024 := by
    rw [Buffer.writeable, Buffer.init, List.length_replicate]
    rfl
  rw [hwrite] at hequal
  cases hequal

end Sails.Base
