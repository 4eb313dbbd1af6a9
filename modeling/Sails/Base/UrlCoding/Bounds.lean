import Sails.Base.UrlCoding

/-!
# Where `url_decode` leaves its two strings (`base/string.cc`)

- `Front`: the codes a string starts with, and what is left behind them
- `Front.Reached`: the loop comes to what is left, with characters to read and room for a byte
- `DecodesInBounds`: a call on a string that ends with its memory and a buffer that ends with its
  length

The room is tested once a pass. A `%` reads two characters on, which are one too many when the
terminator stands right behind it; a `+` writes two bytes, so that one byte of room leaves none for
the NUL. At the end of a string of 2^31 - 2 characters or more the `int` that counts them wraps.
-/

namespace Sails.Base

open TransitionRun (Fault)
open CMemory

/-- **The call stays in bounds**: the string's memory ends with its terminator, the buffer with
`source_len`, and the buffer is left with a NUL. -/
def DecodesInBounds (s buffer : Bytes) : Prop :=
  ∃ decoded, urlDecode (s ++ [0]) buffer buffer.length = .ok decoded ∧ 0 ∈ decoded

/-! ## The codes in front -/

/-- The codes a string starts with. -/
structure Front (s : Bytes) where
  codes : List Code
  rest : Bytes
  decodes : ∀ c ∈ codes, Decodes c.1 c.2
  append_rest : (codes.map Prod.fst).flatten ++ rest = s

namespace Front

variable {s : Bytes}

/-- The number of characters in front of what is left. -/
def read (f : Front s) : Nat := (f.codes.map Prod.fst).flatten.length

/-- The number of bytes they are decoded to: two for a `+`, one for any other code. -/
def written (f : Front s) : Nat := (f.codes.map Prod.snd).flatten.length

/-- The loop comes to what is left and goes on. -/
def Reached (f : Front s) (size : Nat) : Prop :=
  (f.read : Int) < toInt32 s.length ∧ f.written + 1 < size

/-- What is left is a `%` and the terminator, or a `+` with room for one byte and the NUL, or a `%`
at which `i` wraps: with its second digit, or behind it with room for another pass. -/
def Overruns (f : Front s) (size : Nat) : Prop :=
  f.rest = [37] ∨ f.rest.head? = some 43 ∧ f.written + 2 = size ∨
    f.rest.head? = some 37 ∧ (f.read + 2 = 2 ^ 31 ∨ f.read + 3 = 2 ^ 31 ∧ f.written + 2 < size)

/-- Nothing has been read. -/
def start (s : Bytes) : Front s where
  codes := []
  rest := s
  decodes := by simp
  append_rest := rfl

@[simp] theorem read_start (s : Bytes) : (start s).read = 0 := rfl

@[simp] theorem written_start (s : Bytes) : (start s).written = 0 := rfl

/-- One code more. -/
def snoc (f : Front s) {code chunk behind : Bytes} (h : Decodes code chunk)
    (hrest : f.rest = code ++ behind) : Front s where
  codes := f.codes ++ [(code, chunk)]
  rest := behind
  decodes := by
    intro c hc
    rcases List.mem_append.mp hc with hc | hc
    · exact f.decodes c hc
    · rw [List.mem_singleton.mp hc]
      exact h
  append_rest := by
    have hsplit := f.append_rest
    rw [hrest] at hsplit
    simpa using hsplit

@[simp] theorem read_snoc (f : Front s) {code chunk behind : Bytes} (h : Decodes code chunk)
    (hrest : f.rest = code ++ behind) : (f.snoc h hrest).read = f.read + code.length := by
  simp [read, snoc]

@[simp] theorem written_snoc (f : Front s) {code chunk behind : Bytes} (h : Decodes code chunk)
    (hrest : f.rest = code ++ behind) :
    (f.snoc h hrest).written = f.written + chunk.length := by
  simp [written, snoc]

theorem read_add_rest (f : Front s) : f.read + f.rest.length = s.length := by
  rw [read, ← List.length_append, f.append_rest]

/-- The string's memory, split at the front. -/
theorem append_zero (f : Front s) {rest : Bytes} (hrest : f.rest = rest) :
    s ++ [0] = (f.codes.map Prod.fst).flatten ++ (rest ++ [0]) := by
  have hsplit := f.append_rest
  rw [hrest] at hsplit
  rw [← List.append_assoc, hsplit]

/-- The character the front ends at. -/
theorem byteAt_read (f : Front s) {c : UInt8} (h : f.rest.head? = some c) :
    byteAt (s ++ [0]) f.read = .ok c := by
  obtain ⟨behind, hrest⟩ := List.head?_eq_some_iff.mp h
  exact byteAt_append _ (behind ++ [0]) (by rw [f.append_zero hrest, List.cons_append]) rfl

/-- A front the loop has come to is not the whole string. -/
theorem rest_ne_nil (f : Front s) {size : Nat} (h : f.Reached size) : f.rest ≠ [] := by
  intro hrest
  have hlen := f.read_add_rest
  have hle := toInt32_le s.length
  have hread := h.1
  rw [hrest, List.length_nil] at hlen
  omega

end Front

/-! ## The loop -/

section Loop

variable {memory buffer : Bytes} {size index i fuel : Nat}

/-- Behind its last pass the loop writes the NUL. -/
theorem urlDecodeFrom_end {total : Int}
    (h : ¬(toInt32 i < total ∧ (size : Int) > toInt32 (index + 1))) :
    urlDecodeFrom memory total size buffer index i fuel = writeAt buffer index 0 := by
  cases fuel with
  | zero => rfl
  | succ fuel => rw [urlDecodeFrom, if_neg h]

/-- A negative length is as good as none. -/
theorem urlDecodeFrom_toNat (total : Int) :
    urlDecodeFrom memory total.toNat size buffer index 0 fuel =
      urlDecodeFrom memory total size buffer index 0 fuel := by
  have hzero : toInt32 0 = 0 := rfl
  by_cases hneg : total < 0
  · have hend {total : Int} (h : total ≤ 0) :
        ¬(toInt32 0 < total ∧ (size : Int) > toInt32 (index + 1)) := by
      rw [hzero]
      omega
    rw [urlDecodeFrom_end (hend (Int.le_of_lt hneg)), urlDecodeFrom_end (hend (by omega))]
  · rw [Int.toNat_of_nonneg (Int.not_lt.mp hneg)]

/-- A full buffer is overrun, whatever is left to read. -/
theorem urlDecodeFrom_of_full {total : Int} (h : buffer.length ≤ index) :
    urlDecodeFrom memory total size buffer index i fuel = .error .outOfBounds := by
  have hwrite (c : UInt8) : writeAt buffer index c = .error .outOfBounds :=
    if_neg (Nat.not_lt.mpr h)
  have hread (j : Int) : byteAtInt memory j = .error .outOfBounds ∨
      ∃ c, byteAtInt memory j = .ok c := by
    unfold byteAtInt byteAt
    split
    · cases memory[j.toNat]? with
      | none => exact .inl rfl
      | some c => exact .inr ⟨c, rfl⟩
    · exact .inl rfl
  cases fuel with
  | zero => exact hwrite 0
  | succ fuel =>
    rw [urlDecodeFrom]
    split
    · rcases hread (toInt32 i) with hfirst | ⟨c, hfirst⟩
      · simp only [hfirst, bind, Except.bind]
      rcases hread (toInt32 (i + 1)) with hhigh | ⟨high, hhigh⟩
      · simp only [hfirst, hhigh, hwrite, bind, Except.bind, pure, Except.pure]
        split_ifs <;> rfl
      rcases hread (toInt32 (i + 2)) with hlow | ⟨low, hlow⟩
      · simp only [hfirst, hhigh, hlow, hwrite, bind, Except.bind, pure, Except.pure]
        split_ifs <;> rfl
      · simp only [hfirst, hhigh, hlow, hwrite, bind, Except.bind, pure, Except.pure]
        split_ifs <;> rfl
    · exact hwrite 0

theorem exists_writeAt_zero (h : index < buffer.length) :
    ∃ decoded, writeAt buffer index 0 = .ok decoded ∧ 0 ∈ decoded := by
  refine ⟨_, writeAt_eq h 0, ?_⟩
  simp [splice]

/-- Codes with room for all their bytes are passed. -/
theorem urlDecodeFrom_pass (index fuel : Nat) (before behind : Bytes) {codes : List Code}
    (h : ∀ c ∈ codes, Decodes c.1 c.2) {total : Nat} (hint : total < 2 ^ 31)
    (hread : before.length + (codes.map Prod.fst).flatten.length < total)
    (hroom : index + (codes.map Prod.snd).flatten.length + 1 < size)
    (hsize : size ≤ buffer.length) :
    urlDecodeFrom (before ++ (codes.map Prod.fst).flatten ++ behind) total size buffer index
        before.length (codes.length + fuel) =
      urlDecodeFrom (before ++ (codes.map Prod.fst).flatten ++ behind) total size
        (splice buffer index (codes.map Prod.snd).flatten)
        (index + (codes.map Prod.snd).flatten.length)
        (before.length + (codes.map Prod.fst).flatten.length) fuel := by
  induction codes generalizing before buffer index with
  | nil =>
    simp only [List.map_nil, List.flatten_nil, splice_nil, List.length_nil, Nat.add_zero, Nat.zero_add]
  | cons c codes ih =>
    have hc := h c (List.mem_cons_self ..)
    simp only [List.map_cons, List.flatten_cons, List.length_append] at hread hroom ⊢
    have hfits : index + c.2.length ≤ buffer.length := by omega
    have hle := toInt32_le (index + 1)
    have hshape : before ++ (c.1 ++ (codes.map Prod.fst).flatten) ++ behind =
        before ++ c.1 ++ ((codes.map Prod.fst).flatten ++ behind) := by
      simp only [List.append_assoc]
    have hshape' : before ++ c.1 ++ ((codes.map Prod.fst).flatten ++ behind) =
        (before ++ c.1) ++ (codes.map Prod.fst).flatten ++ behind := by
      simp only [List.append_assoc]
    have hfuel : (c :: codes).length + fuel = codes.length + fuel + 1 := by
      rw [List.length_cons]
      omega
    rw [hshape, hfuel, urlDecodeFrom_code hc (by omega) (by omega), if_pos (by omega),
      if_pos hfits, hshape', ← List.length_append, ih _ _ (fun x hx => h x (List.mem_cons_of_mem _ hx))
        (by rw [List.length_append]; omega) (by omega) (by rwa [length_splice hfits]),
      splice_splice hfits, List.length_append, Nat.add_assoc, Nat.add_assoc]

end Loop

/-! ## The call -/

section Call

variable {s buffer : Bytes}

theorem length_codes_le {codes : List Code} (h : ∀ c ∈ codes, Decodes c.1 c.2) :
    codes.length ≤ (codes.map Prod.fst).flatten.length := by
  induction codes with
  | nil => exact Nat.le_refl 0
  | cons c codes ih =>
    have hpos := (h c (List.mem_cons_self ..)).length_pos.1
    have hrest := ih fun x hx => h x (List.mem_cons_of_mem _ hx)
    rw [List.map_cons, List.flatten_cons, List.length_append, List.length_cons]
    omega

/-- The call on a string that ends with its memory. -/
theorem urlDecode_terminated (hs : ∀ c ∈ s, c ≠ 0) (buffer : Bytes) (size : Nat) :
    urlDecode (s ++ [0]) buffer size =
      urlDecodeFrom (s ++ [0]) (toInt32 s.length).toNat size buffer 0 0 s.length := by
  simp only [urlDecode, strlen_append_zero hs [], bind, Except.bind, urlDecodeFrom_toNat]

/-- The length of a string is an `int`. -/
theorem toNat_toInt32_lt (n : Nat) : (toInt32 n).toNat < 2 ^ 31 := by
  have hmod := Nat.mod_lt n (show 0 < 2 ^ 32 by decide)
  unfold toInt32
  split <;> omega

/-- The call comes to every front that is reached, with a pass for each character left. -/
theorem urlDecode_reached (hs : ∀ c ∈ s, c ≠ 0) (f : Front s) (h : f.Reached buffer.length) :
    ∃ buffer' fuel, buffer'.length = buffer.length ∧ f.rest.length ≤ fuel + 1 ∧
      urlDecode (s ++ [0]) buffer buffer.length =
        urlDecodeFrom (s ++ [0]) (toInt32 s.length).toNat buffer.length buffer' f.written f.read
          (fuel + 1) := by
  have hpos := List.length_pos_of_ne_nil (f.rest_ne_nil h)
  obtain ⟨hread, hroom⟩ := h
  have hlen := f.read_add_rest
  have hle := length_codes_le f.decodes
  have hmemory : s ++ [0] = [] ++ (f.codes.map Prod.fst).flatten ++ (f.rest ++ [0]) :=
    f.append_zero rfl
  rw [Front.read] at hread hlen
  rw [Front.written] at hroom
  -- a pass for each code, and one at least is left
  obtain ⟨fuel, hfuel⟩ : ∃ fuel, s.length = f.codes.length + (fuel + 1) :=
    ⟨s.length - f.codes.length - 1, by omega⟩
  refine ⟨splice buffer 0 (f.codes.map Prod.snd).flatten, fuel, length_splice (by omega), by omega,
    ?_⟩
  have hread' : ([] : Bytes).length + (f.codes.map Prod.fst).flatten.length <
      (toInt32 s.length).toNat := by
    rw [List.length_nil]
    omega
  have hpass := urlDecodeFrom_pass 0 (fuel + 1) [] (f.rest ++ [0]) f.decodes
    (toNat_toInt32_lt s.length) hread' (by omega) (Nat.le_refl buffer.length)
  rw [← hmemory, ← hfuel, List.length_nil, Nat.zero_add, Nat.zero_add] at hpass
  rw [urlDecode_terminated hs, hpass, Front.written, Front.read]

/-- One pass at a front. -/
theorem urlDecodeFrom_front {size index total fuel : Nat} (f : Front s)
    {code chunk behind : Bytes} (h : Decodes code chunk) (hrest : f.rest = code ++ behind)
    (hread : f.read < total) (hint : f.read + code.length ≤ 2 ^ 31) :
    urlDecodeFrom (s ++ [0]) total size buffer index f.read (fuel + 1) =
      if (size : Int) > toInt32 (index + 1) then
        if index + chunk.length ≤ buffer.length then
          urlDecodeFrom (s ++ [0]) total size (splice buffer index chunk) (index + chunk.length)
            (f.read + code.length) fuel
        else .error .outOfBounds
      else writeAt buffer index 0 := by
  have hmemory : s ++ [0] = (f.codes.map Prod.fst).flatten ++ code ++ (behind ++ [0]) := by
    rw [f.append_zero hrest]
    simp only [List.append_assoc]
  rw [hmemory]
  exact urlDecodeFrom_code h hread hint

/-- One pass at a `%`. -/
theorem urlDecodeFrom_percent {memory : Bytes} {size index i fuel : Nat} {total : Int}
    (hfirst : byteAt memory i = .ok 37) (hi : i < 2 ^ 31)
    (hloop : toInt32 i < total ∧ (size : Int) > toInt32 (index + 1)) :
    urlDecodeFrom memory total size buffer index i (fuel + 1) = (do
      let high ← byteAtInt memory (toInt32 (i + 1))
      let low ← byteAtInt memory (toInt32 (i + 2))
      let buffer ← writeAt buffer index (fromHexChar high * 16 + fromHexChar low).toUInt8
      urlDecodeFrom memory total size buffer (index + 1) (i + 3) fuel) := by
  have hne : (37 : UInt8) ≠ 43 := by decide
  have hread : byteAtInt memory (toInt32 i) = .ok 37 := (byteAtInt_of_lt hi).trans hfirst
  rw [urlDecodeFrom, if_pos hloop]
  simp only [hread, hne, bind, Except.bind, pure, Except.pure, if_true, if_false]

/-- A `%` with one character behind it takes the terminator for its second digit. -/
theorem exists_of_open {before : Bytes} {high : UInt8} {size index total fuel : Nat}
    (hmemory : s ++ [0] = before ++ [37, high, 0]) (hread : before.length < total)
    (htotal : total ≤ before.length + 2) (hint : before.length + 2 < 2 ^ 31)
    (hwrap : before.length + 3 = 2 ^ 31 → size ≤ index + 2) (hroom : index + 1 < size)
    (hsize : size ≤ buffer.length) (hsize' : size < 2 ^ 31) :
    ∃ decoded, urlDecodeFrom (s ++ [0]) total size buffer index before.length (fuel + 1) =
      .ok decoded ∧ 0 ∈ decoded := by
  have hpercent : byteAt (s ++ [0]) before.length = .ok 37 :=
    byteAt_append before [high, 0] hmemory rfl
  have hhigh : byteAtInt (s ++ [0]) (toInt32 (before.length + 1)) = .ok high :=
    (byteAtInt_of_lt (by omega)).trans
      (byteAt_append (before ++ [37]) [0] (by rw [hmemory]; simp) (by simp))
  have hlow : byteAtInt (s ++ [0]) (toInt32 (before.length + 2)) = .ok 0 :=
    (byteAtInt_of_lt hint).trans
      (byteAt_append (before ++ [37, high]) [] (by rw [hmemory]; simp) (by simp))
  have hloop : toInt32 before.length < total ∧ (size : Int) > toInt32 (index + 1) := by
    have hle := toInt32_le before.length
    have hle' := toInt32_le (index + 1)
    omega
  -- behind it `i` is past the end, or has wrapped and there is no room
  have hend : ¬(toInt32 (before.length + 3) < total ∧
      (size : Int) > toInt32 (index + 1 + 1)) := by
    rw [toInt32_of_lt (n := index + 1 + 1) (by omega)]
    rcases Nat.lt_or_eq_of_le (show before.length + 3 ≤ 2 ^ 31 by omega) with hlt | heq
    · rw [toInt32_of_lt hlt]
      omega
    · have hfull := hwrap heq
      omega
  have hindex : index < buffer.length := by omega
  have hwrite := writeAt_eq hindex (fromHexChar high * 16 + fromHexChar 0).toUInt8
  rw [urlDecodeFrom_percent hpercent (by omega) hloop]
  simp only [hhigh, hlow, hwrite, bind, Except.bind]
  rw [urlDecodeFrom_end hend]
  have hfits : index + [(fromHexChar high * 16 + fromHexChar 0).toUInt8].length ≤
      buffer.length := by
    rw [List.length_singleton]
    omega
  apply exists_writeAt_zero
  rw [length_splice hfits]
  omega

/-- A front that overruns makes the call leave one of its strings. -/
theorem urlDecode_overruns (hs : ∀ c ∈ s, c ≠ 0) (f : Front s) (h : f.Reached buffer.length)
    (hover : f.Overruns buffer.length) :
    urlDecode (s ++ [0]) buffer buffer.length = .error .outOfBounds := by
  have hrest := f.rest_ne_nil h
  obtain ⟨buffer', fuel, hlen, hfuel, hrun⟩ := urlDecode_reached hs f h
  obtain ⟨hread, hroom⟩ := h
  have hint := toNat_toInt32_lt s.length
  have hend := f.read_add_rest
  have hread' : f.read < (toInt32 s.length).toNat := by omega
  have hloop : toInt32 f.read < (toInt32 s.length).toNat ∧
      (buffer.length : Int) > toInt32 (f.written + 1) := by
    have hle := toInt32_le f.read
    have hle' := toInt32_le (f.written + 1)
    omega
  have hpos := List.length_pos_of_ne_nil hrest
  have hhigh : byteAtInt (s ++ [0]) (toInt32 (f.read + 1)) = .ok (s.getD (f.read + 1) 0) :=
    (byteAtInt_of_lt (by omega)).trans (byteAt_append_zero (by omega))
  -- at a `%` the second digit may be out of reach
  have hmissing (hpercent : f.rest.head? = some 37)
      (hlow : byteAtInt (s ++ [0]) (toInt32 (f.read + 2)) = .error .outOfBounds) :
      urlDecodeFrom (s ++ [0]) (toInt32 s.length).toNat buffer.length buffer' f.written f.read
        (fuel + 1) = .error .outOfBounds := by
    rw [urlDecodeFrom_percent (f.byteAt_read hpercent) (by omega) hloop]
    simp only [hhigh, hlow, bind, Except.bind]
  have hopen (hpercent : f.rest = [37]) :
      urlDecodeFrom (s ++ [0]) (toInt32 s.length).toNat buffer.length buffer' f.written f.read
        (fuel + 1) = .error .outOfBounds := by
    rw [hpercent, List.length_singleton] at hend
    refine hmissing (by rw [hpercent]; rfl) ?_
    rcases Nat.lt_or_eq_of_le (show f.read + 2 ≤ 2 ^ 31 by omega) with hlt | heq
    · rw [byteAtInt_of_lt hlt, byteAt_of_le (by rw [List.length_append, List.length_singleton]; omega)]
    · rw [heq]
      exact byteAtInt_wrapped _
  rw [hrun]
  rcases hover with hpercent | ⟨hplus, hfull⟩ | ⟨hpercent, hwrap | ⟨hwrap, hmore⟩⟩
  · exact hopen hpercent
  -- the two bytes fill the buffer
  · obtain ⟨behind, hcons⟩ := List.head?_eq_some_iff.mp hplus
    have hfits : f.written + ([32, 43] : Bytes).length ≤ buffer'.length := by
      simp only [List.length_cons, List.length_nil]
      omega
    rw [urlDecodeFrom_front f .plus hcons hread' (by rw [List.length_singleton]; omega),
      if_pos hloop.2, if_pos hfits]
    apply urlDecodeFrom_of_full
    rw [length_splice hfits]
    simp only [List.length_cons, List.length_nil]
    omega
  · exact hmissing hpercent (by rw [hwrap]; exact byteAtInt_wrapped _)
  · by_cases hone : f.rest.length = 1
    · obtain ⟨c, hc⟩ := List.length_eq_one_iff.mp hone
      rw [hc, List.head?_cons, Option.some_inj] at hpercent
      exact hopen (by rw [hc, hpercent])
    -- `i` wraps behind the code, and there is room for another pass
    have hlow : byteAtInt (s ++ [0]) (toInt32 (f.read + 2)) = .ok (s.getD (f.read + 2) 0) :=
      (byteAtInt_of_lt (by omega)).trans (byteAt_append_zero (by omega))
    obtain ⟨fuel, rfl⟩ : ∃ k, fuel = k + 1 := Nat.exists_eq_add_one.mpr (by omega)
    have hnext : toInt32 (2 ^ 31) < (toInt32 s.length).toNat ∧
        (buffer.length : Int) > toInt32 (f.written + 1 + 1) := by
      have hle := toInt32_le (f.written + 1 + 1)
      have hneg : toInt32 (2 ^ 31) < 0 := by decide
      omega
    rw [urlDecodeFrom_percent (f.byteAt_read hpercent) (by omega) hloop]
    simp only [hhigh, hlow, writeAt_eq (show f.written < buffer'.length by omega), bind, Except.bind]
    rw [hwrap, urlDecodeFrom, if_pos hnext]
    simp only [byteAtInt_wrapped, bind, Except.bind]

/-- From a front on the call stays in bounds if no front it reaches overruns. -/
theorem exists_of_not_overruns (hs : ∀ c ∈ s, c ≠ 0) {size : Nat} (hsize : size < 2 ^ 31)
    (hover : ∀ f : Front s, f.Reached size → ¬f.Overruns size) (f : Front s)
    (hwritten : f.written < size) (hwrap : f.read < 2 ^ 31 ∨ size ≤ f.written + 1)
    (hlen : buffer.length = size) (fuel : Nat) :
    ∃ decoded, urlDecodeFrom (s ++ [0]) (toInt32 s.length).toNat size buffer f.written f.read fuel =
      .ok decoded ∧ 0 ∈ decoded := by
  have hint := toNat_toInt32_lt s.length
  induction fuel generalizing f buffer with
  | zero => exact exists_writeAt_zero (hlen ▸ hwritten)
  | succ fuel ih =>
    by_cases hreached : f.Reached size
    swap
    · have hend : ¬(toInt32 f.read < (toInt32 s.length).toNat ∧
          (size : Int) > toInt32 (f.written + 1)) := by
        rw [toInt32_of_lt (n := f.written + 1) (by omega)]
        rintro ⟨hread, hroom⟩
        rw [toInt32_of_lt (hwrap.resolve_right (by omega))] at hread
        exact hreached ⟨by omega, by omega⟩
      rw [urlDecodeFrom_end hend]
      exact exists_writeAt_zero (hlen ▸ hwritten)
    have hnot := hover f hreached
    have hread : f.read < (toInt32 s.length).toNat := by
      have hread := hreached.1
      omega
    have hroom := hreached.2
    -- a whole code that leaves room for the NUL leads to the next front
    have hnext {code chunk behind : Bytes} (h : Decodes code chunk)
        (hrest : f.rest = code ++ behind) (hfits : f.written + chunk.length < size)
        (hcode : f.read + code.length < 2 ^ 31 ∨
          f.read + code.length = 2 ^ 31 ∧ size ≤ f.written + chunk.length + 1) :
        ∃ decoded, urlDecodeFrom (s ++ [0]) (toInt32 s.length).toNat size buffer f.written f.read
          (fuel + 1) = .ok decoded ∧ 0 ∈ decoded := by
      have hbuffer : f.written + chunk.length ≤ buffer.length := by omega
      have hle := toInt32_le (f.written + 1)
      rw [urlDecodeFrom_front f h hrest hread (by omega), if_pos (by omega), if_pos hbuffer]
      have hlen' : (splice buffer f.written chunk).length = size := by
        rw [length_splice hbuffer, hlen]
      have hrun := ih (f.snoc h hrest) (by simpa using hfits)
        (by simpa using hcode.imp_right And.right) hlen'
      rwa [Front.written_snoc, Front.read_snoc] at hrun
    have hmem : ∀ c ∈ f.rest, c ≠ 0 := by
      intro c hc
      apply hs
      rw [← f.append_rest]
      exact List.mem_append_right _ hc
    match hrest : f.rest with
    | [] => exact absurd hrest (f.rest_ne_nil hreached)
    | c :: behind =>
      have hc : c ≠ 0 := hmem c (by rw [hrest]; exact List.mem_cons_self ..)
      by_cases hplus : c = 43
      · rw [hplus] at hrest
        have hfull : f.written + 2 ≠ size := fun hfull =>
          hnot (.inr (.inl ⟨by rw [hrest]; rfl, hfull⟩))
        exact hnext .plus hrest (by simp only [List.length_cons, List.length_nil]; omega)
          (.inl (by rw [List.length_singleton]; omega))
      by_cases hpercent : c = 37
      · rw [hpercent] at hrest
        -- `i` does not wrap, or there is no room behind the code
        have hdigit : f.read + 2 ≠ 2 ^ 31 := fun heq =>
          hnot (.inr (.inr ⟨by rw [hrest]; rfl, .inl heq⟩))
        have hpass : f.read + 3 = 2 ^ 31 → size ≤ f.written + 2 := fun heq => by
          by_contra hmore
          exact hnot (.inr (.inr ⟨by rw [hrest]; rfl, .inr ⟨heq, by omega⟩⟩))
        match behind with
        | [] => exact absurd (.inl hrest) hnot
        | [high] =>
          -- the terminator is taken for the second digit, and the loop is over
          have hend := f.read_add_rest
          have hle := toInt32_le s.length
          rw [hrest, Front.read] at hend
          simp only [List.length_cons, List.length_nil] at hend
          rw [Front.read] at hdigit hpass hread
          exact exists_of_open (f.append_zero hrest) hread (by omega) (by omega) hpass (by omega)
            (by omega) hsize
        | high :: low :: behind =>
          have hhigh : high ≠ 0 := hmem high (by rw [hrest]; simp)
          have hlow : low ≠ 0 := hmem low (by rw [hrest]; simp)
          exact hnext (.hex hhigh hlow) hrest (by simp only [List.length_singleton]; omega)
            (by simp only [List.length_cons, List.length_nil]; omega)
      · exact hnext (.plain hc hplus hpercent) hrest
          (by simp only [List.length_singleton]; omega)
          (.inl (by rw [List.length_singleton]; omega))

/-- **When `url_decode` stays in bounds**: it does not come to a `%` in front of the terminator, nor
to a `+` with room for one byte and the NUL, nor to a `%` at which `i` wraps. -/
theorem decodesInBounds_iff (s buffer : Bytes) (hs : ∀ c ∈ s, c ≠ 0) (hsize : 1 ≤ buffer.length)
    (hint : buffer.length < 2 ^ 31) :
    DecodesInBounds s buffer ↔
      ∀ f : Front s, f.Reached buffer.length → ¬f.Overruns buffer.length := by
  constructor
  · rintro ⟨decoded, hrun, -⟩ f hreached hover
    rw [urlDecode_overruns hs f hreached hover] at hrun
    cases hrun
  · intro hover
    have hrun := exists_of_not_overruns hs hint hover (Front.start s) hsize (.inl (by simp)) rfl
      s.length
    rwa [DecodesInBounds, urlDecode_terminated hs]

/-- A letter and its terminator, in a buffer of two. -/
theorem decodesInBounds_iff_letter : DecodesInBounds [97] [0, 0] :=
  (decodesInBounds_iff [97] [0, 0] (by simp) (by decide) (by decide)).mpr (by
    rintro f - hover
    have hhead : ∀ c behind, f.rest = c :: behind → c = 97 := by
      intro c behind hrest
      have hmem : c ∈ ([97] : Bytes) := by
        rw [← f.append_rest, hrest]
        simp
      exact List.mem_singleton.mp hmem
    rcases hover with hpercent | ⟨hplus, -⟩ | ⟨hpercent, -⟩
    · exact absurd (hhead 37 [] hpercent) (by decide)
    · obtain ⟨behind, hrest⟩ := List.head?_eq_some_iff.mp hplus
      exact absurd (hhead 43 behind hrest) (by decide)
    · obtain ⟨behind, hrest⟩ := List.head?_eq_some_iff.mp hpercent
      exact absurd (hhead 37 behind hrest) (by decide))

/-- A `%` in front of the terminator. -/
theorem decodesInBounds_percent : ¬DecodesInBounds [37] [0, 0] := by
  rintro ⟨decoded, hrun, -⟩
  have hfault : urlDecode ([37] ++ [0]) [0, 0] ([0, 0] : Bytes).length = .error .outOfBounds := by
    decide
  cases hfault.symm.trans hrun

end Call

end Sails.Base
