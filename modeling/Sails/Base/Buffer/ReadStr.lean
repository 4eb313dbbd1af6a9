import Sails.Base.Buffer.Shrink

/-!
# `read_str` copies a C string from `begin()`

- `FrontIsCString`: the content begins with what `strncpy` makes of the start of the vector
- `readStr_takes_iff`: then, and while the length survives its conversion to `int`, the bytes stored
  are the first of the content
-/

namespace Sails.Base

open TransitionRun (Fault)
open CMemory

/-! ## C string copies -/

/-- The first `k` bytes of the queue are what a C string copy of the storage has there: the bytes of
the storage as far as its first NUL, and NULs from there on. -/
def FrontIsCString (storage q : Bytes) (k : Nat) : Prop :=
  ∀ i < k, q[i]? = if 0 ∈ storage.take (i + 1) then some 0 else storage[i]?

instance (storage q : Bytes) (k : Nat) : Decidable (FrontIsCString storage q k) :=
  inferInstanceAs (Decidable (∀ i < k, _))

theorem strncpy_eq_take_iff {storage q : Bytes} {k : Nat} (hstorage : k ≤ storage.length)
    (hq : k ≤ q.length) : strncpy storage k = .ok (q.take k) ↔ FrontIsCString storage q k := by
  obtain ⟨d, hd⟩ := exists_strncpy hstorage
  have hlen := length_of_strncpy hd
  rw [hd]
  constructor
  · intro h
    cases h
    intro i hi
    rw [← getElem?_of_strncpy hd hi, List.getElem?_take_of_lt hi]
  · intro h
    refine congrArg Except.ok (List.ext_getElem? fun i => ?_)
    by_cases hi : i < k
    · rw [getElem?_of_strncpy hd hi, List.getElem?_take_of_lt hi, h i hi]
    · rw [List.getElem?_eq_none (by omega), List.getElem?_eq_none (by rw [List.length_take]; omega)]

/-- **`read_str` takes from the front**: `str` gets the first bytes of the content, at most `max` of
them, and the buffer keeps the others. -/
def ReadStrTakes (b : RawBuffer) (q str : Bytes) (max : Int32) : Prop :=
  ∃ b', b.readStr str max = .ok (splice str 0 (q.take max.toInt.toNat), b') ∧
    b'.content = .ok (q.drop max.toInt.toNat)

/-- The number of bytes `read_string` passes on: `readable()` as an `int`, or `max`. -/
def RawBuffer.readCount (b : RawBuffer) (max : Int32) : Int :=
  if toInt32 b.readable.toNat > max.toInt then max.toInt else toInt32 b.readable.toNat

/-- What `read_string` stores once the start of the vector has been copied. -/
theorem readString_of_ok {b : RawBuffer} {str d : Bytes} {max : Int32}
    (hd : strncpy b.data (UInt64.ofInt (b.readCount max)).toNat = .ok d) :
    b.readString str max = if d.length ≤ str.length then .ok (splice str 0 d, b.readCount max)
      else .error (.fault .outOfBounds) := by
  rw [RawBuffer.readCount] at hd ⊢
  simp only [RawBuffer.readString, hd]

theorem readString_of_error {b : RawBuffer} {str : Bytes} {max : Int32} {f : Fault}
    (hd : strncpy b.data (UInt64.ofInt (b.readCount max)).toNat = .error f) :
    b.readString str max = .error (.fault f) := by
  rw [RawBuffer.readCount] at hd
  simp only [RawBuffer.readString, hd]

section ReadStr

variable {b : Buffer} (hb : b.InMemory) {str : Bytes} {max : Int32}

include hb

/-- A count that is a length. -/
theorem readStr_raw {k : Nat} {d : Bytes} (hk : b.raw.readCount max = k) (hle : k ≤ b.readable)
    (hd : strncpy b.data k = .ok d) (hroom : k ≤ str.length) :
    b.raw.readStr str max = .ok (splice str 0 d, (b.retrieve k).raw) := by
  have hsmall : k ≤ b.data.length := hle.trans ((Nat.sub_le ..).trans b.writeIndex_le)
  have hcount : (UInt64.ofInt k).toNat = k := by
    have hmax : b.data.length ≤ 2 ^ 63 - 1 := hb
    rw [UInt64.ofInt, UInt64.toNat_ofNat']
    omega
  have hread : b.raw.readString str max = .ok (splice str 0 d, k) := by
    have hcopy : strncpy b.raw.data (UInt64.ofInt (b.raw.readCount max)).toNat = .ok d := by
      rw [hk, hcount]
      exact hd
    rw [readString_of_ok hcopy, hk]
    exact if_pos (by rwa [length_of_strncpy hd])
  simp only [RawBuffer.readStr, hread, bind, Except.bind, pure, Except.pure, b.retrieve_raw hb,
    hcount]

omit hb in
/-- A negative count is a number of bytes no object has. -/
theorem readStr_of_neg {b : RawBuffer} (hneg : b.readCount max < 0) (hfits : str.length ≤ maxSize) :
    ∃ f, b.readStr str max = .error (.fault f) := by
  have hlow : -2 ^ 31 ≤ b.readCount max := by
    have hmax := max.le_toInt
    unfold RawBuffer.readCount toInt32
    split_ifs
    all_goals omega
  have hcount : maxSize < (UInt64.ofInt (b.readCount max)).toNat := by
    rw [UInt64.ofInt, UInt64.toNat_ofNat', maxSize]
    omega
  have hread : ∃ f, b.readString str max = .error (.fault f) := by
    cases hcopy : strncpy b.data (UInt64.ofInt (b.readCount max)).toNat with
    | error f => exact ⟨f, readString_of_error hcopy⟩
    | ok copied =>
      rw [readString_of_ok hcopy]
      refine ⟨.outOfBounds, if_neg ?_⟩
      rw [length_of_strncpy hcopy]
      omega
  obtain ⟨f, hf⟩ := hread
  exact ⟨f, by simp only [RawBuffer.readStr, hf, bind, Except.bind]⟩

theorem readStrTakes_raw_iff (hmax : 0 ≤ max.toInt) (hfits : str.length ≤ maxSize)
    (hroom : min b.readable max.toInt.toNat ≤ str.length) :
    ReadStrTakes b.raw b.content str max ↔
      ((min b.readable max.toInt.toNat : Nat) : Int) ≤ toInt32 b.readable ∧
        FrontIsCString b.data b.content (min b.readable max.toInt.toNat) := by
  have hreadable := b.toNat_raw_readable hb
  have hint := toInt32_le b.readable
  have hcount : b.raw.readCount max =
      if toInt32 b.readable > max.toInt then max.toInt else toInt32 b.readable := by
    rw [RawBuffer.readCount, hreadable]
  generalize hk : min b.readable max.toInt.toNat = k at hroom ⊢
  have hle : k ≤ b.readable := hk ▸ Nat.min_le_left ..
  have hdata : k ≤ b.data.length := hle.trans ((Nat.sub_le ..).trans b.writeIndex_le)
  -- `k` bytes are as many as `max`, or all
  have htake : b.content.take max.toInt.toNat = b.content.take k := by
    rw [← hk, ← b.length_content, List.take_eq_take_iff]
    omega
  have hdrop : b.content.drop max.toInt.toNat = b.content.drop k := by
    rw [List.drop_eq_drop_min, b.length_content, Nat.min_comm, hk]
  have hqk : k ≤ b.content.length := by rwa [b.length_content]
  obtain ⟨d, hd⟩ := exists_strncpy hdata
  have hiff := strncpy_eq_take_iff hdata hqk
  rw [hd] at hiff
  rw [ReadStrTakes, htake, hdrop]
  by_cases hint' : (k : Int) ≤ toInt32 b.readable
  -- the count is the one asked for
  · have hreads : b.raw.readCount max = k := by
      rw [hcount]
      split_ifs
      all_goals omega
    rw [readStr_raw hb hreads hle hd hroom, ← hiff]
    constructor
    · rintro ⟨b', hok, -⟩
      have hsplice : splice str 0 d = splice str 0 (b.content.take k) := by
        exact congrArg Prod.fst (Except.ok.inj hok)
      have hlen : d.length = k := length_of_strncpy hd
      have hlen' : (b.content.take k).length = k := List.length_take_of_le hqk
      -- and what stands at the front tells what was stored
      have hfront (bs : Bytes) (hbs : bs.length = k) : (splice str 0 bs).take k = bs := by
        have htake' : (splice str 0 bs).take (0 + bs.length) = bs := take_splice (Nat.zero_le _)
        rwa [hbs, Nat.zero_add] at htake'
      refine ⟨hint', congrArg Except.ok ?_⟩
      rw [← hfront d hlen, hsplice, hfront _ hlen']
    · rintro ⟨-, hsame⟩
      rw [Except.ok.inj hsame]
      refine ⟨(b.retrieve k).raw, rfl, ?_⟩
      rw [← b.content_retrieve]
      exact (b.retrieve k).load_content (b.inMemory_retrieve hb k)
  -- the `int` is smaller, or not a number of bytes
  · have hreads : b.raw.readCount max = toInt32 b.readable := by
      rw [hcount]
      split_ifs
      all_goals omega
    refine ⟨?_, fun h => absurd h.1 hint'⟩
    rintro ⟨b', hok, hcontent⟩
    by_cases hneg : toInt32 b.readable < 0
    · obtain ⟨f, hf⟩ := readStr_of_neg (hreads.trans_lt hneg) hfits
      rw [hf] at hok
      cases hok
    · obtain ⟨j, hj⟩ := Int.eq_ofNat_of_zero_le (Int.not_lt.mp hneg)
      have hjdata : j ≤ b.data.length := by omega
      obtain ⟨d', hd'⟩ := exists_strncpy hjdata
      rw [readStr_raw hb (hreads.trans hj) (by omega) hd' (by omega)] at hok
      -- too many bytes are left
      have hleft : b'.content = .ok (b.content.drop j) := by
        obtain rfl : (b.retrieve j).raw = b' := congrArg Prod.snd (Except.ok.inj hok)
        rw [← b.content_retrieve]
        exact (b.retrieve j).load_content (b.inMemory_retrieve hb j)
      have hlengths := congrArg List.length (Except.ok.inj (hleft.symm.trans hcontent))
      rw [List.length_drop, List.length_drop, b.length_content] at hlengths
      omega

end ReadStr

/-- **When `read_str` takes from the front**: for every buffer that can be reached, when the length
survives its conversion to `int`, and the content begins as a C string copied from the start of the
vector does. -/
theorem readStr_takes_iff {host : Endian} {b : RawBuffer} {q : Bytes} (hb : Reachable host b)
    (hq : b.content = .ok q) (str : MemoryObject) {max : Int32} (hmax : 0 ≤ max)
    (hroom : min q.length max.toInt.toNat ≤ str.bytes.length) :
    ReadStrTakes b q str.bytes max ↔
      ((min q.length max.toInt.toNat : Nat) : Int) ≤ toInt32 q.length ∧
        FrontIsCString b.data q (min q.length max.toInt.toNat) := by
  have hover : ¬b.Overrun := by
    rw [RawBuffer.content, RawBuffer.load] at hq
    split_ifs at hq with hin
    exact Nat.not_lt.mpr hin.2
  obtain ⟨b₀, rfl, hmem⟩ := hb.bounded.exists_raw hover
  have hcontent : b₀.raw.content = .ok b₀.content := b₀.load_content hmem
  obtain rfl := Except.ok.inj (hcontent.symm.trans hq)
  rw [b₀.length_content] at hroom ⊢
  exact readStrTakes_raw_iff hmem (Int32.le_iff_toInt_le.mp hmax) str.fits hroom

/-- Two of three bytes. -/
theorem readStr_takes_iff_front :
    ReadStrTakes ⟨splice (List.replicate 1024 0) 0 [97, 98, 99], 0, 3⟩ [97, 98, 99] [0, 0] 2 := by
  have hreach : Reachable .little ⟨splice (List.replicate 1024 0) 0 [97, 98, 99], 0, 3⟩ := by
    refine .call (.append ⟨[97, 98, 99], by decide⟩) (.construct Buffer.construct_eq) ?_
    exact RawBuffer.append_blank RawBuffer.initSize_le (by decide)
  refine (readStr_takes_iff hreach ?_ ⟨[0, 0], by decide⟩ (by decide) (by decide)).mpr ?_
  · exact content_splice_zeros rfl (by decide)
  · exact ⟨by decide, by decide⟩

/-- After one byte of `ab` has been taken `read_str` still gives the `a`. -/
theorem readStr_not_from_front :
    Reachable .little ⟨splice (List.replicate 1024 0) 0 [97, 98], 1, 2⟩ ∧
      ¬ReadStrTakes ⟨splice (List.replicate 1024 0) 0 [97, 98], 1, 2⟩ [98] [0] 1 := by
  constructor
  · refine .call (.retrieve 1) (b := ⟨splice (List.replicate 1024 0) 0 [97, 98], 0, 2⟩) ?_ rfl
    refine .call (.append ⟨[97, 98], by decide⟩) (.construct Buffer.construct_eq) ?_
    exact RawBuffer.append_blank RawBuffer.initSize_le (by decide)
  · rintro ⟨b', hok, -⟩
    have hread : RawBuffer.readStr ⟨splice (List.replicate 1024 0) 0 [97, 98], 1, 2⟩ [0] 1 =
        .ok ([97], ⟨splice (List.replicate 1024 0) 0 [97, 98], 2, 2⟩) := rfl
    have hstr : [97] = splice [0] 0 ([98].take (1 : Int32).toInt.toNat) :=
      congrArg Prod.fst (Except.ok.inj (hread.symm.trans hok))
    exact absurd hstr (by decide)

end Sails.Base
