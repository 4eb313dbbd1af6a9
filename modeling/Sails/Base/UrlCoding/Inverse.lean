import Sails.Base.UrlCoding.Encoding

/-!
# Encoding undone (`base/string.cc`)

- `RoundTrips`: `url_decode` of what `url_encode` made of a string is this string
- a space comes back as a space and a `+`, so that the decoded text is longer than the string
- the one way out: the buffer is full before the last of a run of `+` is decoded
-/

namespace Sails.Base

open CMemory

/-- **The round trip**: the string is encoded, and decoding the buffer gives it back. -/
def RoundTrips (s behind encoded decoded : Bytes) : Prop :=
  ∃ e d, urlEncode (s ++ 0 :: behind) encoded encoded.length = .ok (e, true) ∧
    urlDecode e decoded decoded.length = .ok d ∧ text d = s

/-! ## What the spaces do to the text -/

theorem flatMap_decodedByte {s : Bytes} (h : 32 ∉ s) : s.flatMap decodedByte = s := by
  induction s with
  | nil => rfl
  | cons c s ih =>
    rw [List.mem_cons, not_or] at h
    have hc : decodedByte c = [c] := if_neg (Ne.symm h.1)
    rw [List.flatMap_cons, hc, ih h.2, List.singleton_append]

theorem flatMap_decodedByte_space (a t : Bytes) (h : 32 ∉ a) :
    (a ++ 32 :: t).flatMap decodedByte = a ++ 32 :: 43 :: t.flatMap decodedByte := by
  have hspace : decodedByte 32 = [32, 43] := if_pos rfl
  rw [List.flatMap_append, flatMap_decodedByte h, List.flatMap_cons, hspace]
  rfl

/-- A text that its decoding, one `+` late, begins with is a run of `+`. -/
theorem eq_replicate_of_late {t v : Bytes} (h : 43 :: t.flatMap decodedByte = t ++ v) :
    ∃ k, t = List.replicate k 43 ∧ v = [43] := by
  induction t with
  | nil => exact ⟨0, rfl, h.symm⟩
  | cons c t ih =>
    obtain ⟨hc, htail⟩ := List.cons.inj h
    have hcode : decodedByte c = [43] := by
      rw [← hc]
      rfl
    rw [List.flatMap_cons, hcode] at htail
    obtain ⟨k, rfl, rfl⟩ := ih htail
    exact ⟨k + 1, by rw [← hc, List.replicate_succ], rfl⟩

/-- When the decoding of a text begins with this text: without a space, or with a run of `+` behind
the first one. -/
theorem cases_of_decoded {u v : Bytes} (h : u.flatMap decodedByte = u ++ v) :
    (32 ∉ u ∧ v = []) ∨
      ∃ a k, u = a ++ 32 :: List.replicate k 43 ∧ 32 ∉ a ∧ v = [43] := by
  induction u with
  | nil => exact .inl ⟨List.not_mem_nil, h.symm⟩
  | cons c u ih =>
    by_cases hspace : c = 32
    · rw [hspace, ← List.nil_append (32 :: u), flatMap_decodedByte_space [] u List.not_mem_nil] at h
      obtain ⟨k, hu, hv⟩ := eq_replicate_of_late (List.cons.inj h).2
      exact .inr ⟨[], k, by rw [hspace, hu, List.nil_append], List.not_mem_nil, hv⟩
    · have hcode : decodedByte c = [c] := if_neg hspace
      rw [List.flatMap_cons, hcode] at h
      rcases ih (List.cons.inj h).2 with ⟨hu, hv⟩ | ⟨a, k, hu, ha, hv⟩
      · refine .inl ⟨fun hmem => ?_, hv⟩
        rcases List.mem_cons.mp hmem with hc | hmem
        · exact hspace hc.symm
        · exact hu hmem
      · refine .inr ⟨c :: a, k, by rw [hu, List.cons_append], fun hmem => ?_, hv⟩
        rcases List.mem_cons.mp hmem with hc | hmem
        · exact hspace hc.symm
        · exact ha hmem

/-! ## The two calls -/

section RoundTrip

variable {s encoded decoded : Bytes}

theorem decodedByte_ne_nil (c : UInt8) : decodedByte c ≠ [] := by
  unfold decodedByte
  split_ifs <;> exact List.cons_ne_nil _ _

theorem ne_nil_of_mem_map_decodedByte {s chunk : Bytes} (h : chunk ∈ s.map decodedByte) :
    chunk ≠ [] := by
  obtain ⟨c, -, rfl⟩ := List.mem_map.mp h
  exact decodedByte_ne_nil c

/-- The bytes decoded from a text without NUL are no NULs either. -/
theorem ne_zero_of_mem_decoded {s : Bytes} (hs : ∀ c ∈ s, c ≠ 0) :
    ∀ c ∈ s.flatMap decodedByte, c ≠ 0 := by
  intro c hc
  obtain ⟨x, hx, hc⟩ := List.mem_flatMap.mp hc
  unfold decodedByte at hc
  split_ifs at hc
  · rcases List.mem_pair.mp hc with rfl | rfl <;> decide
  · rw [List.mem_singleton.mp hc]
    exact hs x hx

/-- Both calls in terms of the decoded chunks. -/
theorem roundTrips_iff_fill (behind : Bytes) (hs : ∀ c ∈ s, c ≠ 0 ∧ c < 128)
    (hencoded : (urlText s).length + 1 ≤ encoded.length) (hint : encoded.length < 2 ^ 31) :
    RoundTrips s behind encoded decoded ↔
      ∃ d, fillFrom decoded.length decoded 0 (s.map decodedByte) = .ok d ∧ text d = s := by
  have hle := length_le_urlText s
  have hlen : s.length < 2 ^ 31 := by omega
  have hencode : urlEncode (s ++ 0 :: behind) encoded encoded.length =
      .ok (splice encoded 0 (urlText s ++ [0]), true) := by
    have hfits : 0 + (encodedText s).length + 1 ≤ encoded.length := by
      rw [encodedText_eq]
      omega
    rw [urlEncode_eq (fun c hc => (hs c hc).1), toInt32_of_lt hlen, if_neg (by omega),
      looked_eq hlen, urlEncodeFrom_eq (Nat.le_refl _) (fun c hc => (hs c hc).2) hfits,
      encodedText_eq]
  have hcodes : ∀ x ∈ s.map fun c => (encodedByte c, decodedByte c), Decodes x.1 x.2 := by
    intro x hx
    obtain ⟨c, hc, rfl⟩ := List.mem_map.mp hx
    exact decodes_byte (hs c hc).1 (hs c hc).2
  have hfst : ((s.map fun c => (encodedByte c, decodedByte c)).map Prod.fst).flatten =
      urlText s := by
    rw [List.map_map, ← encodedText_eq, encodedText, List.flatMap_def]
    rfl
  have hsnd : (s.map fun c => (encodedByte c, decodedByte c)).map Prod.snd =
      s.map decodedByte := List.map_map
  -- the buffer begins with the encoded text and its NUL
  have hdecode : urlDecode (splice encoded 0 (urlText s ++ [0])) decoded decoded.length =
      fillFrom decoded.length decoded 0 (s.map decodedByte) := by
    have hlength : ((s.map fun c => (encodedByte c, decodedByte c)).map Prod.fst).flatten.length <
        2 ^ 31 := by
      rw [hfst]
      omega
    rw [← hsnd, ← urlDecode_eq hcodes hlength (encoded.drop (0 + (urlText s ++ [0]).length)), hfst,
      splice, List.take_zero, List.nil_append, List.append_assoc]
    rfl
  rw [RoundTrips, hencode]
  constructor
  · rintro ⟨e, d, he, hd, htext⟩
    cases he
    exact ⟨d, hdecode ▸ hd, htext⟩
  · rintro ⟨d, hd, htext⟩
    exact ⟨_, d, rfl, hdecode.trans hd, htext⟩

/-- What is decoded to the string itself: everything, without a space, or all but the last of a run
of `+`, for want of room. -/
theorem cases_of_fill {d : Bytes} (hs : ∀ c ∈ s, c ≠ 0)
    (hfill : fillFrom decoded.length decoded 0 (s.map decodedByte) = .ok d) (htext : text d = s) :
    32 ∉ s ∨ decoded.length ≤ s.length + 1 ∧
      ∃ a k, 32 ∉ a ∧ s = a ++ 32 :: List.replicate (k + 1) 43 := by
  obtain ⟨done, rest, hchunks, hd, -, hrest⟩ := exists_of_fillFrom hfill
  obtain ⟨u, v, huv, hu, hv⟩ := List.map_eq_append_iff.mp hchunks
  have hflat : done.flatten = u.flatMap decodedByte := by rw [← hu, List.flatMap_def]
  have hself : u.flatMap decodedByte = u ++ v := by
    have hnone : ∀ c ∈ u.flatMap decodedByte, c ≠ 0 := by
      apply ne_zero_of_mem_decoded
      intro c hc
      apply hs
      rw [huv]
      exact List.mem_append_left _ hc
    rw [← huv, ← htext, hd, hflat, text_splice_zero, text_eq_self hnone]
  rcases cases_of_decoded hself with ⟨hspace, hnil⟩ | ⟨a, k, hplus, ha, hlast⟩
  · rw [huv, hnil, List.append_nil]
    exact .inl hspace
  · right
    have hleft : rest ≠ [] := by
      rw [← hv, hlast]
      exact List.cons_ne_nil _ _
    have hshort := hrest.resolve_left hleft
    rw [hflat, hself, ← huv] at hshort
    refine ⟨by omega, a, k, ha, ?_⟩
    rw [huv, hplus, hlast, List.append_assoc, List.cons_append, List.replicate_succ']

theorem fill_of_no_space (hspace : 32 ∉ s) (hdecoded : s.length + 1 ≤ decoded.length) :
    fillFrom decoded.length decoded 0 (s.map decodedByte) = .ok (splice decoded 0 (s ++ [0])) := by
  have hflat : (s.map decodedByte).flatten = s := by
    rw [← List.flatMap_def, flatMap_decodedByte hspace]
  rw [fillFrom_eq (Nat.le_refl _) (fun _ => ne_nil_of_mem_map_decodedByte)
    (by rw [hflat]; omega), hflat]

/-- With a run of `+` behind the only space a buffer for the string is full before the last. -/
theorem fill_of_full {a : Bytes} {k : Nat} (hplus : s = a ++ 32 :: List.replicate (k + 1) 43)
    (ha : 32 ∉ a) (hlen : decoded.length = s.length + 1) (hint : s.length + 1 < 2 ^ 31) :
    fillFrom decoded.length decoded 0 (s.map decodedByte) = .ok (splice decoded 0 (s ++ [0])) := by
  have hread : s = (a ++ 32 :: List.replicate k 43) ++ [43] := by
    rw [hplus, List.append_assoc, List.cons_append, List.replicate_succ']
  have hruns : 32 ∉ List.replicate k (43 : UInt8) := by
    intro hmem
    have h := List.eq_of_mem_replicate hmem
    cases h
  have hflat : ((a ++ 32 :: List.replicate k 43).map decodedByte).flatten = s := by
    rw [← List.flatMap_def, flatMap_decodedByte_space _ _ ha, flatMap_decodedByte hruns, hplus,
      List.replicate_succ]
  have hend : fillFrom decoded.length (splice decoded 0 s) (0 + s.length)
      ([43].map decodedByte) = .ok (splice decoded 0 (s ++ [0])) := by
    rw [List.map_cons, fillFrom, toInt32_of_lt (by omega), if_neg (by omega),
      writeAt_splice _ (by omega)]
  rw [hread, List.map_append, ← hread, fillFrom_append _ (Nat.le_refl _)
    (fun _ => ne_nil_of_mem_map_decodedByte) (by rw [hflat]; omega), hflat]
  exact hend

/-- **When decoding undoes encoding**: no space is in the string, or the buffer ends where the last
`+` behind the only space would be decoded. -/
theorem roundTrips_iff (s behind encoded decoded : Bytes) (hs : ∀ c ∈ s, 1 ≤ c ∧ c ≤ 127)
    (hencoded : (urlText s).length + 1 ≤ encoded.length) (hint : encoded.length < 2 ^ 31)
    (hdecoded : s.length + 1 ≤ decoded.length) :
    RoundTrips s behind encoded decoded ↔
      32 ∉ s ∨ decoded.length = s.length + 1 ∧
        ∃ a k, 32 ∉ a ∧ s = a ++ 32 :: List.replicate (k + 1) 43 := by
  have hascii : ∀ c ∈ s, c ≠ 0 ∧ c < 128 := by
    intro c hc
    obtain ⟨hlow, hhigh⟩ := hs c hc
    have hlow' : 1 ≤ c.toNat := hlow
    have hhigh' : c.toNat ≤ 127 := hhigh
    refine ⟨fun h => ?_, ?_⟩
    · rw [h, UInt8.toNat_zero] at hlow'
      omega
    · show c.toNat < 128
      omega
  have hzero : ∀ c ∈ s, c ≠ 0 := fun c hc => (hascii c hc).1
  have htext : text (splice decoded 0 (s ++ [0])) = s := by
    rw [text_splice_zero, text_eq_self hzero]
  rw [roundTrips_iff_fill behind hascii hencoded hint]
  constructor
  · rintro ⟨d, hfill, htext⟩
    rcases cases_of_fill hzero hfill htext with hspace | ⟨hle, hplus⟩
    · exact .inl hspace
    · exact .inr ⟨by omega, hplus⟩
  · rintro (hspace | ⟨hlen, a, k, ha, hplus⟩)
    · exact ⟨_, fill_of_no_space hspace hdecoded, htext⟩
    · have hle := length_le_urlText s
      exact ⟨_, fill_of_full hplus ha hlen (by omega), htext⟩

/-- `a/` there and back. -/
theorem roundTrips_iff_slash : RoundTrips [97, 47] [] (List.replicate 5 0) (List.replicate 3 0) :=
  (roundTrips_iff [97, 47] [] (List.replicate 5 0) (List.replicate 3 0) (by simp) (by decide)
    (by decide) (by decide)).mpr (.inl (by simp))

/-- A space comes back with a `+` behind it. -/
theorem roundTrips_space : ¬RoundTrips [32] [] (List.replicate 2 0) (List.replicate 4 0) := by
  rintro ⟨e, d, he, hd, htext⟩
  have hencode : urlEncode ([32] ++ 0 :: []) (List.replicate 2 0) (List.replicate 2 0).length =
      .ok ([43, 0], true) := by decide
  cases hencode.symm.trans he
  have hdecode : urlDecode [43, 0] (List.replicate 4 0) (List.replicate 4 0).length =
      .ok [32, 43, 0, 0] := by decide
  cases hdecode.symm.trans hd
  cases htext

end RoundTrip

end Sails.Base
