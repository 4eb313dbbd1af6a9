import Sails.Crypto.Md5
import Sails.Library.BlockHash

/-!
# MD5 of a stream

- `md5`: padding and compression of the whole message at once
- `update_eq`, `update_ok_iff`: one update, and when the 32-bit index of its loop wraps
- `final_eq`: the digest is right, but the buffer keeps the end of the padding
- `digest_stream`: the digests of a run of right calls; `digest_repeated`: a run of others
-/

namespace Sails.Crypto

open TransitionRun (Fault Along run run_ok)
open CMemory
open BlockHash

/-! ## The digest of a message -/

/-- The state before the first block. -/
def initialState : MD5State := ⟨0x67452301, 0xefcdab89, 0x98badcfe, 0x10325476⟩

/-- The bit `1` and the zeros that leave room for the length in the last block. -/
def marker (length : Nat) : Bytes := 0x80 :: List.replicate ((119 - length % 64) % 64) 0

/-- The number of bits modulo `2 ^ 64`, low-order byte first. -/
def lengthBytes (length : Nat) : Bytes :=
  (List.range 8).map fun i => (8 * length / 256 ^ i % 256).toUInt8

def padding (message : Bytes) : Bytes := marker message.length ++ lengthBytes message.length

/-- The MD5 digest. -/
def md5 (message : Bytes) : Bytes :=
  encode (BlockHash.hash transform 64 initialState padding message).words

/-- The last block of the padded message. -/
def lastBlock (message : Bytes) : Bytes :=
  rest 64 (message ++ marker message.length) ++ lengthBytes message.length

/-! ## The counts -/

/-- The two words hold the number of bits modulo `2 ^ 64`. -/
def Counts (m : MD5) (n : Nat) : Prop :=
  m.count0.toNat + 2 ^ 32 * m.count1.toNat = 8 * n % 2 ^ 64

theorem toNat_index (m : MD5) : m.index.toNat = m.count0.toNat / 8 % 64 := by
  have hmask := Nat.and_two_pow_sub_one_eq_mod (m.count0.toNat >>> 3) 6
  simpa [MD5.index, Nat.shiftRight_eq_div_pow] using hmask

theorem Counts.index {m : MD5} {n : Nat} (h : Counts m n) : m.index.toNat = n % 64 := by
  have hlow := m.count0.toNat_lt
  rw [toNat_index]
  unfold Counts at h
  omega

theorem Counts.addBits {m : MD5} {n length : Nat} (h : Counts m n) (hlength : length < 2 ^ 32) :
    Counts (m.addBits length) (n + length) := by
  have hbits : (length.toUInt32 <<< 3).toNat = 8 * length % 2 ^ 32 := by
    simp [Nat.shiftLeft_eq, Nat.mul_comm]
  have hhigh : (length.toUInt32 >>> 29).toNat = length / 2 ^ 29 := by
    simpa [Nat.shiftRight_eq_div_pow] using
      congrArg (· / 536870912) (Nat.mod_eq_of_lt hlength)
  have hlow := m.count0.toNat_lt
  have hcarry : m.count0 + length.toUInt32 <<< 3 < length.toUInt32 <<< 3 ↔
      2 ^ 32 ≤ m.count0.toNat + 8 * length % 2 ^ 32 := by
    rw [UInt32.lt_iff_toNat_lt, UInt32.toNat_add, hbits]
    omega
  unfold Counts at h ⊢
  simp only [MD5.addBits, UInt32.toNat_add, hbits, hcarry, apply_ite UInt32.toNat, hhigh]
  split <;> simp <;> omega

/-- A byte of a word. -/
theorem byte_eq {w k : UInt32} (hk : k < 32) :
    (w >>> k &&& 0xff).toUInt8 = (w.toNat / 2 ^ k.toNat % 256).toUInt8 := by
  have hk' : k.toNat < 32 := hk
  have hmask := Nat.and_two_pow_sub_one_eq_mod (w.toNat / 2 ^ k.toNat % 256) 8
  apply UInt8.toNat_inj.mp
  simpa [Nat.shiftRight_eq_div_pow, Nat.mod_eq_of_lt hk'] using hmask

/-- The bytes of a word. -/
theorem encode_cons (w : UInt32) (words : List UInt32) :
    encode (w :: words) = [(w.toNat % 256).toUInt8, (w.toNat / 2 ^ 8 % 256).toUInt8,
      (w.toNat / 2 ^ 16 % 256).toUInt8, (w.toNat / 2 ^ 24 % 256).toUInt8] ++ encode words := by
  have hfirst : (w &&& 0xff).toUInt8 = (w.toNat % 256).toUInt8 := by
    have hbyte := byte_eq (w := w) (k := 0) (by decide)
    simpa using hbyte
  rw [encode, List.flatMap_cons, hfirst, byte_eq (by decide), byte_eq (by decide),
    byte_eq (by decide)]
  rfl

/-- The counts as `final` appends them. -/
theorem Counts.encode_eq {m : MD5} {n : Nat} (h : Counts m n) :
    encode [m.count0, m.count1] = lengthBytes n := by
  have hlow := m.count0.toNat_lt
  have hword0 : m.count0.toNat = 8 * n % 2 ^ 32 := by
    unfold Counts at h
    omega
  have hword1 : m.count1.toNat = 8 * n / 2 ^ 32 % 2 ^ 32 := by
    unfold Counts at h
    omega
  rw [encode_cons, encode_cons, hword0, hword1, lengthBytes]
  simp only [List.range_succ, List.range_zero, List.map_nil, List.map_cons, List.nil_append,
    List.cons_append, encode, List.flatMap_nil, List.append_nil, List.cons.injEq, and_true]
  refine ⟨?_, ?_, ?_, ?_, ?_, ?_, ?_, ?_⟩ <;> congr 1 <;> omega

/-! ## One update -/

theorem readAt_eq {input : Bytes} {i n : Nat} (h : i + n ≤ input.length) :
    readAt input i n = .ok ((input.drop i).take n) := if_pos h

theorem storeAt_eq (buffer : CharArray 64) (index : Nat) (bs : Bytes)
    (h : index + bs.length ≤ 64) :
    ∃ stored, storeAt buffer index bs = .ok stored ∧
      stored.bytes = splice buffer.bytes index bs := by
  obtain ⟨stored, hstore, hbytes⟩ := buffer.store_eq_ok index bs h
  refine ⟨stored, ?_, hbytes⟩
  rw [storeAt, hstore]
  rfl

/-- The block loop: as long as `i + 63` does not wrap it compresses the full blocks. -/
theorem transformFrom_eq {input : Bytes} {r : Nat} (hlength : r + input.length < 2 ^ 32)
    (s : MD5State) {i : UInt32} (hi : i.toNat ≤ input.length) (halign : (i.toNat + r) % 64 = 0)
    (fuel : Nat) (hfuel : (input.length - i.toNat) / 64 < fuel) :
    ∃ j, transformFrom input s i fuel = .ok (absorb transform 64 s (input.drop i.toNat), j) ∧
      j.toNat ≤ input.length ∧ input.drop j.toNat = rest 64 (input.drop i.toNat) := by
  -- by induction on the blocks; 32 bits do not overflow before the end of the input
  induction fuel generalizing s i with
  | zero => omega
  | succ fuel ih =>
    have htest : (i + 63).toNat = i.toNat + 63 := by
      rw [UInt32.toNat_add]
      simp only [UInt32.reduceToNat]
      omega
    rw [transformFrom, htest]
    by_cases hmore : i.toNat + 63 < input.length
    · have hnext : (i + 64).toNat = i.toNat + 64 := by
        rw [UInt32.toNat_add]
        simp only [UInt32.reduceToNat]
        omega
      obtain ⟨block, hblock⟩ : ∃ block, (input.drop i.toNat).take 64 = block := ⟨_, rfl⟩
      have hread : readAt input i.toNat 64 = .ok block := by rw [readAt_eq (by omega), hblock]
      -- one more block is absorbed
      have hcut : input.drop i.toNat = block ++ input.drop (i + 64).toNat := by
        rw [hnext, ← List.drop_drop, ← hblock, List.take_append_drop]
      have hsize : block.length = 64 := by
        rw [← hblock, List.length_take, List.length_drop]
        omega
      rw [if_pos hmore, hread, hcut, absorb_block (by decide) hsize,
        rest_block (by decide) hsize]
      exact ih (transform s block) (by omega) (by omega) (by omega)
    · have hshort : (input.drop i.toNat).length < 64 := by
        rw [List.length_drop]
        omega
      rw [if_neg hmore, absorb_of_lt hshort, rest_of_lt hshort]
      exact ⟨i, rfl, hi, rfl⟩

/-- When the last full block would end behind position `2 ^ 32`, `i + 63` wraps there and the loop
reads behind the input. -/
theorem transformFrom_wraps {input : Bytes} {r : Nat} (hr : r < 64) (hshort : input.length < 2 ^ 32)
    (hlength : 2 ^ 32 ≤ r + input.length) (s : MD5State) {i : UInt32} (hi : i.toNat + r ≤ 2 ^ 32)
    (halign : (i.toNat + r) % 64 = 0) {fuel : Nat} (hfuel : (2 ^ 32 - (i.toNat + r)) / 64 < fuel) :
    transformFrom input s i fuel = .error (.memory .outOfBounds) := by
  -- by induction on the blocks up to 2^32; the test never sees the end of the input
  induction fuel generalizing s i with
  | zero => omega
  | succ fuel ih =>
    have htest : (i + 63).toNat < input.length := by
      rw [UInt32.toNat_add]
      simp only [UInt32.reduceToNat]
      omega
    rw [transformFrom, if_pos htest]
    rcases Nat.lt_or_ge (i.toNat + r) (2 ^ 32) with hbefore | hlast
    · have hnext : (i + 64).toNat = i.toNat + 64 := by
        rw [UInt32.toNat_add]
        simp only [UInt32.reduceToNat]
        omega
      rw [readAt_eq (by omega)]
      exact ih _ (by omega) (by omega) (by omega)
    -- the last block before 2^32 is not in the input
    · have hbehind : ¬i.toNat + 64 ≤ input.length := by omega
      rw [readAt, if_neg hbehind]
      rfl

/-- The bytes of a block begun but not compressed yet. -/
def MD5.pending (m : MD5) : Bytes := m.buffer.bytes.take m.index.toNat

/-- What `update` does with the input and the bytes already in the buffer. -/
structure Updated (m : MD5) (input : Bytes) (m' : MD5) : Prop where
  state : m'.state = absorb transform 64 m.state (m.pending ++ input)
  buffer : ∃ kept, m'.buffer.bytes = rest 64 (m.pending ++ input) ++ kept
  block : (m.pending ++ input).length = 64 → m'.buffer.bytes = m.pending ++ input
  counts : ∀ n, Counts m n → Counts m' (n + input.length)
  finished : m'.finished = false

theorem index_lt (m : MD5) : m.index.toNat < 64 := by
  rw [toNat_index]
  omega

theorem length_pending (m : MD5) : m.pending.length = m.index.toNat := by
  have hlt := index_lt m
  rw [MD5.pending, List.length_take, m.buffer.length_bytes]
  omega

theorem toNat_partLen (m : MD5) : (64 - m.index).toNat = 64 - m.index.toNat := by
  rw [UInt32.toNat_sub_of_le _ _ (UInt32.le_iff_toNat_le.mpr (index_lt m).le)]
  rfl

@[simp] theorem addBits_buffer (m : MD5) (length : Nat) : (m.addBits length).buffer = m.buffer := rfl

@[simp] theorem addBits_state (m : MD5) (length : Nat) : (m.addBits length).state = m.state := rfl

/-- Less than a block: the input goes behind the pending bytes. -/
theorem update_short {m : MD5} {input : Bytes} (hlength : input.length < 2 ^ 32)
    (h : m.index.toNat + input.length < 64) : ∃ m', m.update input = .ok m' ∧ Updated m input m' := by
  have hpart : ¬(64 - m.index).toNat ≤ input.length := by
    rw [toNat_partLen]
    omega
  obtain ⟨stored, hstore, hbytes⟩ := storeAt_eq m.buffer m.index.toNat input (by omega)
  have hshort : (m.pending ++ input).length < 64 := by
    rw [List.length_append, length_pending]
    exact h
  refine ⟨{ m.addBits input.length with finished := false, buffer := stored }, ?_, ?_⟩
  · simp only [MD5.update, hpart, if_false]
    exact congrArg (· >>= _) hstore
  · constructor
    case state => exact (absorb_of_lt hshort).symm
    case buffer => exact ⟨_, by rw [rest_of_lt hshort]; exact hbytes⟩
    case block => exact fun hfull => absurd hfull hshort.ne
    case counts => exact fun n hn => hn.addBits hlength
    case finished => rfl

/-- The block begun is filled, then the loop runs. -/
theorem update_fill (m : MD5) (input : Bytes) (h : 64 ≤ m.index.toNat + input.length) :
    ∃ filled : CharArray 64, filled.bytes = m.pending ++ input.take (64 - m.index).toNat ∧
      m.update input = do
        let (state, i) ← transformFrom input (transform m.state filled.bytes) (64 - m.index)
          (input.length / 64 + 1)
        let left ← readAt input i.toNat (input.length - i.toNat)
        let buffer ← storeAt filled 0 left
        return { m.addBits input.length with finished := false, state, buffer } := by
  have hindex := index_lt m
  have hpartLen := toNat_partLen m
  have hpart : (64 - m.index).toNat ≤ input.length := by omega
  have hread : readAt input 0 (64 - m.index).toNat = .ok (input.take (64 - m.index).toNat) := by
    rw [readAt_eq (by omega), List.drop_zero]
  have hlen : (input.take (64 - m.index).toNat).length = 64 - m.index.toNat := by
    rw [List.length_take]
    omega
  obtain ⟨filled, hfill, hfilled⟩ := storeAt_eq m.buffer m.index.toNat
    (input.take (64 - m.index).toNat) (by omega)
  refine ⟨filled, ?_, ?_⟩
  · have hend : m.buffer.bytes.drop (m.index.toNat + (input.take (64 - m.index).toNat).length) =
        [] := by
      apply List.drop_of_length_le
      rw [m.buffer.length_bytes]
      omega
    rw [hfilled, splice, hend, List.append_nil]
    rfl
  · simp only [MD5.update, hpart, if_true, hread, bind, Except.bind, addBits_buffer, addBits_state,
      hfill]

/-- At least a block: the full blocks are compressed and the rest goes to the front of the buffer. -/
theorem update_blocks {m : MD5} {input : Bytes} (hlength : m.index.toNat + input.length < 2 ^ 32)
    (h : 64 ≤ m.index.toNat + input.length) :
    ∃ m', m.update input = .ok m' ∧ Updated m input m' := by
  have hindex := index_lt m
  have hpartLen := toNat_partLen m
  have hpart : (64 - m.index).toNat ≤ input.length := by omega
  obtain ⟨filled, hbytes, hupdate⟩ := update_fill m input h
  have hcut : m.pending ++ input = filled.bytes ++ input.drop (64 - m.index).toNat := by
    rw [hbytes, List.append_assoc, List.take_append_drop]
  -- the blocks behind it
  obtain ⟨i, hloop, hi, hleft⟩ := transformFrom_eq hlength (transform m.state filled.bytes)
    (i := 64 - m.index) hpart (by omega) (input.length / 64 + 1) (by omega)
  have hstate : absorb transform 64 (transform m.state filled.bytes)
      (input.drop (64 - m.index).toNat) = absorb transform 64 m.state (m.pending ++ input) := by
    rw [hcut, absorb_block (by decide) filled.length_bytes]
  have hrest : rest 64 (input.drop (64 - m.index).toNat) = rest 64 (m.pending ++ input) := by
    rw [hcut, rest_block (by decide) filled.length_bytes]
  have hreadLeft : readAt input i.toNat (input.length - i.toNat) =
      .ok (rest 64 (m.pending ++ input)) := by
    rw [readAt_eq (by omega), List.take_of_length_le (by rw [List.length_drop]), hleft, hrest]
  have hfits : (rest 64 (m.pending ++ input)).length < 64 := by
    rw [length_rest]
    exact Nat.mod_lt _ (by decide)
  obtain ⟨kept, hkeep, hkept⟩ := storeAt_eq filled 0 (rest 64 (m.pending ++ input))
    (by omega)
  refine ⟨{ m.addBits input.length with
    finished := false
    state := absorb transform 64 m.state (m.pending ++ input)
    buffer := kept }, ?_, ?_⟩
  · rw [hstate] at hloop
    simp only [hupdate, hloop, bind, Except.bind, hreadLeft, hkeep]
    rfl
  · constructor
    case state => rfl
    case buffer => exact ⟨_, hkept⟩
    case block =>
      intro hfull
      have hempty : rest 64 (m.pending ++ input) = [] := by
        apply List.eq_nil_of_length_eq_zero
        rw [length_rest, hfull]
      rw [hempty] at hkept
      have hwhole : input.drop (64 - m.index).toNat = [] := by
        rw [List.length_append, length_pending] at hfull
        apply List.drop_of_length_le
        omega
      rw [hcut, hwhole, List.append_nil]
      exact hkept
    case counts => exact fun n hn => hn.addBits (by omega)
    case finished => rfl

/-- **Update**: it does not fail as long as the pending bytes and the input together are less than
`2 ^ 32`. -/
theorem update_eq (m : MD5) (input : Bytes) (hlength : m.index.toNat + input.length < 2 ^ 32) :
    ∃ m', m.update input = .ok m' ∧ Updated m input m' := by
  rcases Nat.lt_or_ge (m.index.toNat + input.length) 64 with hshort | hblocks
  · exact update_short (by omega) hshort
  · exact update_blocks hlength hblocks

/-- Less than `2 ^ 32` bytes that do not end before `2 ^ 32` behind the pending ones make `update`
read behind its input. -/
theorem update_ok_iff {m : MD5} {input : Bytes} (hlength : input.length < 2 ^ 32) :
    (∃ m', m.update input = .ok m') ↔ m.index.toNat + input.length < 2 ^ 32 := by
  constructor
  · rintro ⟨m', hok⟩
    by_contra hwraps
    have hindex := index_lt m
    have hpartLen := toNat_partLen m
    obtain ⟨filled, -, hupdate⟩ := update_fill m input (by omega)
    rw [hupdate, transformFrom_wraps hindex hlength (by omega) _ (by omega) (by omega) (by omega)]
      at hok
    cases hok
  · intro h
    obtain ⟨m', hok, -⟩ := update_eq m input h
    exact ⟨m', hok⟩

/-! ## The message so far -/

/-- The object has taken in the message. -/
structure Holds (m : MD5) (message : Bytes) : Prop where
  counts : Counts m message.length
  state : m.state = absorb transform 64 initialState message
  pending : m.pending = rest 64 message

theorem Holds.update {m m' : MD5} {message input : Bytes} (h : Holds m message)
    (hupdate : Updated m input m') : Holds m' (message ++ input) := by
  have hcounts : Counts m' (message ++ input).length := by
    rw [List.length_append]
    exact hupdate.counts _ h.counts
  constructor
  case counts => exact hcounts
  case state =>
    rw [hupdate.state, h.state, h.pending]
    exact (absorb_append (by decide) initialState message input).symm
  case pending =>
    obtain ⟨kept, hkept⟩ := hupdate.buffer
    rw [MD5.pending, hkept, h.pending, ← rest_append (by decide), hcounts.index, ← length_rest,
      List.take_left]

theorem holds_reset (m : MD5) : Holds m.reset [] where
  counts := by simp [Counts, MD5.reset]
  state := rfl
  pending := by simp [MD5.pending, MD5.index, MD5.reset, rest]

/-! ## Finalisation -/

theorem Counts.padLen_eq {m : MD5} {n : Nat} (h : Counts m n) :
    m.padLen.toNat = (119 - n % 64) % 64 + 1 := by
  have hindex := h.index
  have hlt := index_lt m
  by_cases hroom : m.index < 56
  · have hle : m.index ≤ 56 := UInt32.le_of_lt hroom
    have hroom' : m.index.toNat < 56 := hroom
    rw [MD5.padLen, if_pos hroom, UInt32.toNat_sub_of_le _ _ hle]
    simp only [UInt32.reduceToNat]
    omega
  · have hroom' : ¬m.index.toNat < 56 := hroom
    have hle : m.index ≤ 120 := UInt32.le_iff_toNat_le.mpr (by simp only [UInt32.reduceToNat]; omega)
    rw [MD5.padLen, if_neg hroom, UInt32.toNat_sub_of_le _ _ hle]
    simp only [UInt32.reduceToNat]
    omega

/-- What `final` takes of `PADDING`. -/
theorem Counts.pad_eq {m : MD5} {n : Nat} (h : Counts m n) :
    readAt PADDING 0 m.padLen.toNat = .ok (marker n) := by
  have hzeros : (119 - n % 64) % 64 ≤ 63 := by omega
  have hfits : 0 + m.padLen.toNat ≤ PADDING.length := by
    rw [h.padLen_eq, PADDING, List.length_cons, List.length_replicate]
    omega
  rw [readAt_eq hfits, h.padLen_eq, List.drop_zero, PADDING, List.take_succ_cons,
    List.take_replicate, Nat.min_eq_left hzeros, marker]

theorem length_lengthBytes (n : Nat) : (lengthBytes n).length = 8 := by
  rw [lengthBytes, List.length_map, List.length_range]

/-- The marker fills the message up to the place of the length. -/
theorem length_marked (message : Bytes) :
    (message ++ marker message.length).length % 64 = 56 := by
  rw [List.length_append, marker, List.length_cons, List.length_replicate]
  omega

theorem length_lastBlock (message : Bytes) : (lastBlock message).length = 64 := by
  rw [lastBlock, List.length_append, length_rest, length_marked, length_lengthBytes]

/-- What `final` leaves behind. -/
structure Finalized (m : MD5) (message : Bytes) (m' : MD5) : Prop where
  digested : m'.digested = md5 message
  state : m'.state = m.state
  count0 : m'.count0 = m.count0
  count1 : m'.count1 = m.count1
  /-- the buffer is not restored -/
  buffer : m'.buffer.bytes = lastBlock message
  /-- nor is `finished` -/
  finished : m'.finished = false

theorem final_eq {m : MD5} {message : Bytes} (h : Holds m message) :
    ∃ m', m.final = .ok m' ∧ Finalized m message m' := by
  have hindex := index_lt m
  have hmarker : (marker message.length).length < 65 := by
    rw [marker, List.length_cons, List.length_replicate]
    omega
  have hlengthBytes := length_lengthBytes message.length
  obtain ⟨padded, hpad, hpadded⟩ := update_eq m (marker message.length) (by omega)
  have hmarked := h.update hpadded
  have hindex' := index_lt padded
  obtain ⟨closed, hclose, hclosed⟩ := update_eq padded (lengthBytes message.length)
    (by omega)
  have hwhole := hmarked.update hclosed
  have hlast : padded.pending ++ lengthBytes message.length = lastBlock message := by
    rw [hmarked.pending, lastBlock]
  refine ⟨{ closed with
    digested := encode closed.state.words
    state := m.state
    count0 := m.count0
    count1 := m.count1 }, ?_, ?_⟩
  · simp only [MD5.final, h.counts.encode_eq, h.counts.pad_eq, bind, Except.bind, hpad, hclose]
    rfl
  · constructor
    case digested => rw [md5, BlockHash.hash, padding, ← List.append_assoc, ← hwhole.state]
    case state => rfl
    case count0 => rfl
    case count1 => rfl
    case buffer => exact (hclosed.block (by rw [hlast, length_lastBlock])).trans hlast
    case finished => exact hclosed.finished

/-! ## What an intermediate digest spoils -/

/-- The bytes waiting in the buffer are not those that `final` leaves in their place. -/
def Spoils (message : Bytes) : Prop :=
  (lastBlock message).take (message.length % 64) ≠ rest 64 message

instance (message : Bytes) : Decidable (Spoils message) := inferInstanceAs (Decidable (_ ≠ _))

/-- Pending bytes that leave room for the length stand at the front of the last block. -/
theorem not_spoils_of_lt {message : Bytes} (h : message.length % 64 < 56) : ¬Spoils message := by
  have hfit : (rest 64 message ++ marker message.length).length < 64 := by
    rw [List.length_append, length_rest, marker, List.length_cons, List.length_replicate]
    omega
  have hlast : lastBlock message =
      rest 64 message ++ (marker message.length ++ lengthBytes message.length) := by
    rw [lastBlock, rest_append (by decide), rest_of_lt hfit, List.append_assoc]
  rw [Spoils, not_not, hlast, ← length_rest, List.take_left]

/-- A digest that spoils nothing leaves the object as it was. -/
theorem Holds.final {m m' : MD5} {message : Bytes} (h : Holds m message)
    (hfinal : Finalized m message m') (hkeeps : ¬Spoils message) : Holds m' message := by
  have hcounts : Counts m' message.length := by
    rw [Counts, hfinal.count0, hfinal.count1]
    exact h.counts
  constructor
  case counts => exact hcounts
  case state => rw [hfinal.state, h.state]
  case pending =>
    rw [Spoils, not_not] at hkeeps
    rw [MD5.pending, hfinal.buffer, hcounts.index, hkeeps]

/-! ## Runs -/

/-- A call on the object. -/
inductive Md5Call where
  | update (input : Bytes)
  | digest
  | reset

/-- An object and its history. -/
structure Md5Run where
  ctx : MD5
  /-- the bytes given to `update` since the last reset -/
  given : Bytes
  /-- a digest since the last reset has left other bytes than the pending ones in the buffer -/
  spoilt : Bool
  /-- every digest returned, with the bytes given until then -/
  digests : List (Bytes × Bytes)

def md5Step (s : Md5Run) : Md5Call → Except Md5Fault Md5Run
  | .update input => do
    let ctx ← s.ctx.update input
    return { s with ctx, given := s.given ++ input }
  | .digest => do
    let (ctx, digested) ← s.ctx.digest
    return { s with
      ctx
      spoilt := s.spoilt || decide (Spoils s.given)
      digests := s.digests ++ [(s.given, digested)] }
  | .reset => return { s with ctx := s.ctx.reset, given := [], spoilt := false }

/-- A reset object; what the buffer and the digest hold is left open. -/
def Md5Run.start (m : MD5) : Md5Run := ⟨m.reset, [], false, []⟩

/-- The calls that are right: an update that does not let `i + 63` wrap, and a digest of an object
that no digest before has spoilt. -/
def Md5Run.Admits (s : Md5Run) : Md5Call → Prop
  | .update input => s.given.length % 64 + input.length < 2 ^ 32
  | .digest => s.spoilt = false
  | .reset => True

/-- Every digest returned is that of the bytes given. -/
def Md5Run.Correct (s : Md5Run) : Prop := ∀ p ∈ s.digests, p.2 = md5 p.1

/-- The counts are right throughout, the rest as long as no digest has spoilt it. -/
structure Md5Run.Invariant (s : Md5Run) : Prop where
  counts : Counts s.ctx s.given.length
  holds : s.spoilt = false → Holds s.ctx s.given
  finished : s.ctx.finished = false
  correct : s.Correct

theorem invariant_start (m : MD5) : (Md5Run.start m).Invariant where
  counts := (holds_reset m).counts
  holds _ := holds_reset m
  finished := rfl
  correct := by simp [Md5Run.Correct, Md5Run.start]

theorem step_update {s : Md5Run} {input : Bytes} (h : s.Invariant)
    (hadmits : s.Admits (.update input)) :
    ∃ t, md5Step s (.update input) = .ok t ∧ t.Invariant := by
  have hlength : s.ctx.index.toNat + input.length < 2 ^ 32 := by
    rw [h.counts.index]
    exact hadmits
  obtain ⟨ctx, hok, hupdate⟩ := update_eq _ _ hlength
  refine ⟨{ s with ctx, given := s.given ++ input }, ?_, ?_⟩
  · simp only [md5Step, hok, bind, Except.bind]
    rfl
  · constructor
    case counts =>
      rw [List.length_append]
      exact hupdate.counts _ h.counts
    case holds => exact fun hspoilt => (h.holds hspoilt).update hupdate
    case finished => exact hupdate.finished
    case correct => exact h.correct

theorem step_digest {s : Md5Run} (h : s.Invariant) (hadmits : s.Admits .digest) :
    ∃ t, md5Step s .digest = .ok t ∧ t.Invariant := by
  have hholds := h.holds hadmits
  have hfresh : Holds { s.ctx with finished := true } s.given :=
    ⟨hholds.counts, hholds.state, hholds.pending⟩
  obtain ⟨ctx, hok, hfinal⟩ := final_eq hfresh
  have hdigest : s.ctx.digest = .ok (ctx, ctx.digested) := by
    simp only [MD5.digest, h.finished, Bool.false_eq_true, if_false, hok, bind, Except.bind]
    rfl
  refine ⟨{ s with
    ctx
    spoilt := s.spoilt || decide (Spoils s.given)
    digests := s.digests ++ [(s.given, ctx.digested)] }, ?_, ?_⟩
  · simp only [md5Step, hdigest, bind, Except.bind]
    rfl
  · constructor
    case counts =>
      rw [Counts, hfinal.count0, hfinal.count1]
      exact h.counts
    case holds =>
      intro hspoilt
      simp only [Bool.or_eq_false_iff, decide_eq_false_iff_not] at hspoilt
      exact hfresh.final hfinal hspoilt.2
    case finished => exact hfinal.finished
    case correct =>
      intro p hp
      rcases List.mem_append.mp hp with hp | hp
      · exact h.correct p hp
      · rw [List.mem_singleton.mp hp]
        exact hfinal.digested

/-- A right call does not fail and keeps the invariant. -/
theorem step_ok {s : Md5Run} {call : Md5Call} (h : s.Invariant) (hadmits : s.Admits call) :
    ∃ t, md5Step s call = .ok t ∧ t.Invariant := by
  cases call with
  | update input => exact step_update h hadmits
  | digest => exact step_digest h hadmits
  | reset =>
    refine ⟨_, rfl, ?_⟩
    have hreset := holds_reset s.ctx
    exact ⟨hreset.counts, fun _ => hreset, rfl, h.correct⟩

/-- **Streaming**: in a run of right calls every digest is that of the bytes given since the last
reset. -/
theorem digest_stream (m : MD5) {calls : List Md5Call}
    (hcalls : Along md5Step Md5Run.Admits (.start m) calls) :
    ∃ s, run md5Step (.start m) calls = .ok s ∧ s.Correct := by
  obtain ⟨s, hrun, h⟩ := run_ok (fun _ _ hs hadmits => step_ok hs hadmits) (invariant_start m) hcalls
  exact ⟨s, hrun, h.correct⟩

theorem history_of_update {s t : Md5Run} {input : Bytes} (h : md5Step s (.update input) = .ok t) :
    t.given = s.given ++ input ∧ t.spoilt = s.spoilt := by
  cases hctx : s.ctx.update input with
  | error fault => simp [md5Step, hctx, bind, Except.bind] at h
  | ok ctx =>
    simp only [md5Step, hctx, bind, Except.bind] at h
    cases h
    exact ⟨rfl, rfl⟩

theorem history_of_digest {s t : Md5Run} (h : md5Step s .digest = .ok t) :
    t.given = s.given ∧ t.spoilt = (s.spoilt || decide (Spoils s.given)) := by
  cases hctx : s.ctx.digest with
  | error fault => simp [md5Step, hctx, bind, Except.bind] at h
  | ok p =>
    simp only [md5Step, hctx, bind, Except.bind] at h
    cases h
    exact ⟨rfl, rfl⟩

/-- An object whose memory is zero. -/
def blank : MD5 := ⟨⟨0, 0, 0, 0⟩, 0, 0, .zero 64, [], false⟩

theorem digest_stream_abcd : ∃ s, run md5Step (.start blank)
    [.update (ascii "abc"), .digest, .update (ascii "d"), .digest] = .ok s ∧ s.Correct := by
  refine digest_stream blank ⟨by simp [Md5Run.Admits, Md5Run.start, ascii], fun t ht => ?_⟩
  obtain ⟨hgiven, hspoilt⟩ := history_of_update ht
  refine ⟨hspoilt, fun u hu => ?_⟩
  obtain ⟨hgiven', hspoilt'⟩ := history_of_digest hu
  have habc : u.given = ascii "abc" := hgiven'.trans hgiven
  have hkeeps : u.spoilt = false := by
    rw [hspoilt', hspoilt, ← hgiven', habc, decide_eq_false (not_spoils_of_lt (by decide))]
    rfl
  refine ⟨?_, fun v hv => ⟨(history_of_update hv).2.trans hkeeps, fun _ _ => trivial⟩⟩
  rw [Md5Run.Admits, habc]
  decide

set_option maxRecDepth 20000 in
/-- Of two digests of 56 bytes the second is another. -/
theorem digest_repeated :
    (run md5Step (.start blank) [.update (List.replicate 56 97), .digest, .digest]).map
      (fun s => s.digests.map fun p => decide (p.2 = md5 p.1)) = .ok [true, false] := by
  decide +kernel

end Sails.Crypto
