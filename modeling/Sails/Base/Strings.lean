import Sails.Library.CMemory

/-!
# `base/string.cc`

- `strlncat`: append to a fixed array, with the assertion that all of it fitted
-/

namespace Sails.Base

open TransitionRun (Fault)
open CMemory

variable {n : Nat}

/-- `strlncat(dst, len, src, n)` for an array `dst` of `len` bytes and the `n` bytes at
`src`: the array and the value returned. -/
def strlncat (dst : CharArray n) (src : Bytes) : Except Fault (CharArray n × Nat) := do
  let slen := strnlen src src.length
  let dlen := strnlen dst.bytes n
  let dst' ←
    if dlen < n then
      let rlen := n - dlen
      let ncpy := if slen < rlen then slen else rlen - 1
      dst.store dlen (src.take ncpy ++ [0])
    else .ok dst
  if n > slen + dlen then .ok (dst', slen + dlen) else .error .assertion

/-- `strlncat` never writes outside the array; its assertion holds exactly when the two
texts and a NUL fit, and then the array holds the two texts. -/
theorem strlncat_spec (dst : CharArray n) (src : Bytes) :
    if dst.str.length + (text src).length < n then
      ∃ dst', strlncat dst src = .ok (dst', (text src).length + dst.str.length) ∧
        dst'.str = dst.str ++ text src ∧ dst'.Terminated
    else strlncat dst src = .error .assertion := by
  have hslen : strnlen src src.length = (text src).length := strnlen_length src
  have hdlen : strnlen dst.bytes n = dst.str.length := by
    have hfull := strnlen_length dst.bytes
    rwa [dst.length_bytes] at hfull
  have hpre : ∀ c ∈ dst.bytes.take dst.str.length, c ≠ 0 := fun c hc => by
    rw [CharArray.take_length_str] at hc
    exact ne_zero_of_mem_text hc
  by_cases hfit : dst.str.length + (text src).length < n
  · rw [if_pos hfit]
    -- everything is copied: what is stored is the text of the source and a NUL
    have htake := take_length_text src
    obtain ⟨dst', hstore, -⟩ := CharArray.store_eq_ok dst dst.str.length
      (text src ++ [0]) (by simp; omega)
    have hstr := CharArray.str_of_store hstore (by omega) hpre fun c hc => ne_zero_of_mem_text hc
    refine ⟨dst', ?_, by rw [hstr.1, CharArray.take_length_str], hstr.2⟩
    have hroom : dst.str.length < n := by omega
    have hall : (text src).length < n - dst.str.length := by omega
    have hassert : n > (text src).length + dst.str.length := by omega
    simp [strlncat, hslen, hdlen, hroom, hall, htake, hstore, hassert, bind, Except.bind]
  · rw [if_neg hfit]
    have hassert : ¬ n > (text src).length + dst.str.length := by omega
    by_cases hroom : dst.str.length < n
    -- a part is copied, inside the array, and the assertion fails
    · have hall : ¬ (text src).length < n - dst.str.length := by omega
      obtain ⟨dst', hstore, -⟩ := CharArray.store_eq_ok dst dst.str.length
        (src.take (n - dst.str.length - 1) ++ [0]) (by simp; omega)
      simp [strlncat, hslen, hdlen, hroom, hall, hstore, hassert, bind, Except.bind]
    · simp [strlncat, hslen, hdlen, hroom, hassert, bind, Except.bind]

/-- On an array that is NUL behind its text, `strlncat` leaves nothing but the two texts. -/
theorem strlncat_ofBytes {s src : Bytes} (hs : ∀ c ∈ s, c ≠ 0) (hsrc : ∀ c ∈ src, c ≠ 0)
    (h : s.length + src.length < n) :
    strlncat (CharArray.ofBytes n s) src =
      .ok (CharArray.ofBytes n (s ++ src), src.length + s.length) := by
  have hslen : strnlen src src.length = src.length := by
    rw [strnlen_length, text_eq_self hsrc]
  have hdlen : strnlen (CharArray.ofBytes n s).bytes n = s.length := by
    have hfull := strnlen_length (CharArray.ofBytes n s).bytes
    rw [(CharArray.ofBytes n s).length_bytes] at hfull
    exact hfull.trans (congrArg List.length (CharArray.str_ofBytes (by omega) hs))
  have hroom : s.length < n := by omega
  have hall : src.length < n - s.length := by omega
  have hassert : n > src.length + s.length := by omega
  have hstore : (CharArray.ofBytes n s).store s.length (src ++ [0]) =
      .ok (CharArray.ofBytes n (s ++ src)) := by
    rw [CharArray.store_ofBytes (by simp; omega), ← List.append_assoc, CharArray.ofBytes_concat_zero]
  simp only [strlncat, hslen, hdlen, if_pos hroom, if_pos hall, if_pos hassert, List.take_length,
    hstore, bind, Except.bind]

/-- `strlncat` sees nothing behind the first NUL of its source. -/
theorem strlncat_text (dst : CharArray n) (src : Bytes) :
    strlncat dst src = strlncat dst (text src) := by
  have hslen : strnlen (text src) (text src).length = strnlen src src.length := by
    rw [strnlen_length, strnlen_length, text_text]
  have htake (k : Nat) (hk : k ≤ (text src).length) : src.take k = (text src).take k := by
    rw [← take_length_text src, List.take_take, Nat.min_eq_left hk]
  have hncpy (dlen : Nat) (hroom : dlen < n) : (if strnlen src src.length < n - dlen then
      strnlen src src.length else n - dlen - 1) ≤ (text src).length := by
    rw [strnlen_length]
    split <;> omega
  unfold strlncat
  simp only [hslen]
  by_cases hroom : strnlen dst.bytes n < n
  · rw [if_pos hroom, if_pos hroom, htake _ (hncpy _ hroom)]
  · rw [if_neg hroom, if_neg hroom]

end Sails.Base
