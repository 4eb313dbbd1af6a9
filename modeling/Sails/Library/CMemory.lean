import Sails.Library.Run
import Mathlib.Data.List.TakeWhile
import Mathlib.Algebra.Group.Nat.Defs
import Mathlib.Algebra.Group.Int.Defs

/-!
# Bytes, C strings and fixed arrays

The parts of the C memory model and of `<string.h>` that byte-handling programs rest on:

- `splice`, `resize`: overwriting a run of bytes, growing a byte vector
- `text`: the bytes before the first NUL, with `strlen`, `strnlen` and `strncpy`; an access
  outside the given bytes is the fault `outOfBounds`
- `ascii`: the bytes of a literal
- `CharArray n`: a `char[n]`, whose length is part of the type's invariant
- `toInt32`, `intLength`: the value a 64-bit quantity keeps when it is converted to `int`, and a length
  that is kept so
-/

namespace CMemory

open TransitionRun (Fault)

/-- A run of bytes in memory. -/
abbrev Bytes := List UInt8

/-- The bytes of a literal of ASCII characters. -/
def ascii (s : String) : Bytes := s.toList.map fun c => c.toNat.toUInt8

/-! ## Overwriting and growing -/

/-- Overwrite the bytes from position `pos` on with `bs`. -/
def splice (l : Bytes) (pos : Nat) (bs : Bytes) : Bytes :=
  l.take pos ++ bs ++ l.drop (pos + bs.length)

/-- `std::vector<char>::resize`: cut to `n` bytes, or fill up with zeros. -/
def resize (l : Bytes) (n : Nat) : Bytes :=
  l.take n ++ List.replicate (n - l.length) 0

theorem length_splice {l bs : Bytes} {pos : Nat} (h : pos + bs.length ≤ l.length) :
    (splice l pos bs).length = l.length := by
  simp only [splice, List.length_append, List.length_take, List.length_drop]
  omega

theorem take_splice {l bs : Bytes} {pos : Nat} (h : pos ≤ l.length) :
    (splice l pos bs).take (pos + bs.length) = l.take pos ++ bs := by
  have hlen : (l.take pos ++ bs).length = pos + bs.length := by simp [Nat.min_eq_left h]
  rw [splice, ← hlen, List.take_left]

/-- Writing no bytes. -/
theorem splice_nil (l : Bytes) (pos : Nat) : splice l pos [] = l := by
  rw [splice, List.append_nil, List.length_nil, Nat.add_zero, List.take_append_drop]

/-- Two runs of bytes written one behind the other. -/
theorem splice_splice {l a b : Bytes} {i : Nat} (h : i + a.length ≤ l.length) :
    splice (splice l i a) (i + a.length) b = splice l i (a ++ b) := by
  have htake : (splice l i a).take (i + a.length) = l.take i ++ a :=
    take_splice ((Nat.le_add_right ..).trans h)
  have hlen : (l.take i ++ a).length = i + a.length := by
    rw [List.length_append, List.length_take, Nat.min_eq_left ((Nat.le_add_right ..).trans h)]
  have hdrop : (splice l i a).drop (i + a.length + b.length) = l.drop (i + (a ++ b).length) := by
    rw [splice, List.drop_append, List.drop_of_length_le (by omega), List.nil_append, hlen,
      List.drop_drop, List.length_append]
    congr 1
    omega
  rw [splice, htake, hdrop, splice, List.append_assoc (l.take i)]

@[simp] theorem length_resize (l : Bytes) (n : Nat) : (resize l n).length = n := by
  simp only [resize, List.length_append, List.length_take, List.length_replicate]
  omega

theorem take_resize {l : Bytes} {n k : Nat} (hk : k ≤ l.length) (hn : k ≤ n) :
    (resize l n).take k = l.take k := by
  rw [resize, List.take_append_of_le_length (by simp; omega), List.take_take,
    Nat.min_eq_left hn]

theorem resize_of_length_le {l : Bytes} {n : Nat} (h : l.length ≤ n) :
    resize l n = l ++ List.replicate (n - l.length) 0 := by
  rw [resize, List.take_of_length_le h]

@[simp] theorem resize_take (l : Bytes) (n : Nat) : resize (l.take n) n = resize l n := by
  rw [resize, resize, List.take_take, Nat.min_self, List.length_take]
  congr 2
  omega

/-- A zero at the end is what resizing fills up with. -/
@[simp] theorem resize_concat_zero (l : Bytes) (n : Nat) : resize (l ++ [0]) n = resize l n := by
  rcases Nat.lt_or_ge l.length n with hlt | hge
  · have hpad : (0 : UInt8) :: List.replicate (n - (l.length + 1)) 0 =
        List.replicate (n - l.length) 0 := by
      rw [← List.replicate_succ]
      congr 1
      omega
    rw [resize_of_length_le (by rw [List.length_append]; exact hlt), resize_of_length_le hlt.le,
      List.append_assoc, List.singleton_append, List.length_append, List.length_singleton, hpad]
  · rw [resize, resize, List.take_append_of_le_length hge, List.length_append]
    congr 2
    omega

/-! ## C strings -/

/-- The text of a C string: the bytes before the first NUL. -/
def text (l : Bytes) : Bytes := l.takeWhile (· != 0)

@[simp] theorem text_nil : text [] = [] := rfl

@[simp] theorem text_zero_cons (l : Bytes) : text (0 :: l) = [] := rfl

theorem text_eq_nil_of_zeros {l : Bytes} (h : ∀ c ∈ l, c = 0) : text l = [] := by
  cases l with
  | nil => rfl
  | cons c l => rw [h c (List.mem_cons_self ..), text_zero_cons]

theorem text_cons_of_ne {c : UInt8} (hc : c ≠ 0) (l : Bytes) : text (c :: l) = c :: text l :=
  List.takeWhile_cons_of_pos (by simpa using hc)

/-- Different first bytes make different texts; a NUL makes the empty one. -/
theorem text_cons_ne {a b : UInt8} (h : a ≠ b) (l r : Bytes) : text (a :: l) ≠ text (b :: r) := by
  intro htext
  by_cases ha : a = 0
  · rw [ha, text_zero_cons, text_cons_of_ne (ha ▸ h.symm)] at htext
    cases htext
  · rw [text_cons_of_ne ha] at htext
    by_cases hb : b = 0
    · rw [hb, text_zero_cons] at htext
      cases htext
    · rw [text_cons_of_ne hb] at htext
      exact h (List.cons.inj htext).1

theorem ne_zero_of_mem_text {c : UInt8} {l : Bytes} (h : c ∈ text l) : c ≠ 0 := by
  simpa using List.mem_takeWhile_imp h

theorem text_isPrefix (l : Bytes) : text l <+: l := List.takeWhile_prefix _

theorem take_length_text (l : Bytes) : l.take (text l).length = text l :=
  (List.prefix_iff_eq_take.mp (text_isPrefix l)).symm

theorem length_text_le (l : Bytes) : (text l).length ≤ l.length := (text_isPrefix l).length_le

theorem text_eq_self {l : Bytes} (h : ∀ c ∈ l, c ≠ 0) : text l = l :=
  List.takeWhile_eq_self_iff.mpr fun c hc => by simpa using h c hc

@[simp] theorem text_text (l : Bytes) : text (text l) = text l :=
  text_eq_self fun _ hc => ne_zero_of_mem_text hc

theorem text_append_zero {l : Bytes} (h : ∀ c ∈ l, c ≠ 0) (r : Bytes) :
    text (l ++ 0 :: r) = l := by
  rw [text, List.takeWhile_append_of_pos fun c hc => by simpa using h c hc]
  exact (congrArg (l ++ ·) (text_zero_cons r)).trans (List.append_nil l)

theorem text_append_replicate {l : Bytes} (h : ∀ c ∈ l, c ≠ 0) {k : Nat} (hk : 0 < k) :
    text (l ++ List.replicate k 0) = l := by
  obtain ⟨j, rfl⟩ := Nat.exists_eq_succ_of_ne_zero hk.ne'
  rw [List.replicate_succ]
  exact text_append_zero h _

/-- A NUL in the first part hides the second. -/
theorem text_append (l r : Bytes) : text (l ++ r) = if 0 ∈ l then text l else l ++ text r := by
  induction l with
  | nil => simp
  | cons c cs ih =>
    by_cases hc : c = 0
    · simp [hc]
    · rw [List.cons_append, text_cons_of_ne hc, ih, text_cons_of_ne hc]
      by_cases hmem : 0 ∈ cs
      · simp [hmem]
      · simp [hmem, Ne.symm hc]

/-- A text that ends before the bytes do is followed by its NUL. -/
theorem eq_text_append_of_lt {l : Bytes} (h : (text l).length < l.length) :
    ∃ r, l = text l ++ 0 :: r := by
  induction l with
  | nil => simp at h
  | cons c cs ih =>
    by_cases hc : c = 0
    · exact ⟨cs, by simp [hc]⟩
    · rw [text_cons_of_ne hc] at h ⊢
      obtain ⟨r, hr⟩ := ih (by simpa using h)
      exact ⟨r, by rw [List.cons_append, ← hr]⟩

/-- The text is shorter than `n` exactly when a NUL stands among the first `n` bytes. -/
theorem length_text_lt_iff {l : Bytes} {n : Nat} :
    ((text l).length < l.length ∧ (text l).length < n) ↔ ∃ k, k < n ∧ l[k]? = some 0 := by
  constructor
  · rintro ⟨hl, hn⟩
    obtain ⟨r, hr⟩ := eq_text_append_of_lt hl
    have hget : l[(text l).length]? = (text l ++ 0 :: r)[(text l).length]? :=
      congrArg (·[(text l).length]?) hr
    exact ⟨(text l).length, hn, by rw [hget]; simp⟩
  · rintro ⟨k, hk, hzero⟩
    have hle : (text l).length ≤ k := by
      by_contra hgt
      have hkt : k < (text l).length := by omega
      obtain ⟨r, hr⟩ := text_isPrefix l
      rw [← hr, List.getElem?_append_left hkt, List.getElem?_eq_getElem hkt] at hzero
      exact ne_zero_of_mem_text (List.getElem_mem hkt) (Option.some.inj hzero)
    have hkl : k < l.length := (List.getElem?_eq_some_iff.mp hzero).1
    omega

/-- `strlen`: the number of bytes before the first NUL; reading past the last byte of the
object is a fault. -/
def strlen : Bytes → Except Fault Nat
  | [] => .error .outOfBounds
  | c :: cs => if c = 0 then .ok 0 else (strlen cs).map (· + 1)

theorem strlen_eq (l : Bytes) :
    strlen l = if (text l).length < l.length then .ok (text l).length
      else .error .outOfBounds := by
  induction l with
  | nil => rfl
  | cons c cs ih =>
    by_cases hc : c = 0
    · simp [strlen, hc]
    · rw [strlen, if_neg hc, ih, text_cons_of_ne hc]
      by_cases hlt : (text cs).length < cs.length <;> simp [hlt, Except.map]

/-- The length of a string with its NUL, whatever stands behind it. -/
theorem strlen_append_zero {l : Bytes} (h : ∀ c ∈ l, c ≠ 0) (r : Bytes) :
    strlen (l ++ 0 :: r) = .ok l.length := by
  rw [strlen_eq, text_append_zero h, if_pos (by simp)]

/-- The text of a buffer with a run of bytes and a NUL written to its front. -/
theorem text_splice_zero (bs buffer : Bytes) :
    text (splice buffer 0 (bs ++ [0])) = text bs := by
  rw [splice, List.take_zero, List.nil_append, List.append_assoc, text_append]
  by_cases hnul : (0 : UInt8) ∈ bs
  · rw [if_pos hnul]
  · rw [if_neg hnul, List.singleton_append, text_zero_cons, List.append_nil,
      text_eq_self fun c hc hzero => hnul (hzero ▸ hc)]

/-- `strnlen` of a buffer of which at most `n` bytes may be read. -/
def strnlen (l : Bytes) (n : Nat) : Nat := (text (l.take n)).length

@[simp] theorem strnlen_length (l : Bytes) : strnlen l l.length = (text l).length := by
  rw [strnlen, List.take_length]

/-- The `n` bytes `strncpy` stores: the text of the source, padded with NULs; when the
source has no NUL in its first `n` bytes nothing terminates the copy. -/
def strncpy : Bytes → Nat → Except Fault Bytes
  | _, 0 => .ok []
  | [], _ + 1 => .error .outOfBounds
  | c :: cs, n + 1 =>
    if c = 0 then .ok (List.replicate (n + 1) 0) else (strncpy cs n).map (c :: ·)

/-- Measuring the `n` bytes `strncpy` has stored: the length of the source's text, provided
that the text ends inside the source and inside the `n` bytes. -/
theorem strlen_strncpy (src : Bytes) (n : Nat) :
    (strncpy src n >>= strlen) =
      if (text src).length < src.length ∧ (text src).length < n then .ok (text src).length
      else .error .outOfBounds := by
  induction src generalizing n with
  | nil => cases n <;> rfl
  | cons c cs ih =>
    cases n with
    | zero => simp [strncpy, bind, Except.bind, strlen]
    | succ n =>
      by_cases hc : c = 0
      · simp [strncpy, hc, bind, Except.bind, strlen, List.replicate_succ]
      -- both loops move past `c`; what is left is the statement for the tail
      · have htail : (strncpy (c :: cs) (n + 1) >>= strlen)
            = (strncpy cs n >>= strlen).map (· + 1) := by
          rw [strncpy, if_neg hc]
          cases strncpy cs n with
          | error e => rfl
          | ok d => simp [bind, Except.bind, Except.map, strlen, hc]
        rw [htail, ih, text_cons_of_ne hc]
        by_cases hlt : (text cs).length < cs.length ∧ (text cs).length < n
        · rw [if_pos hlt, if_pos (by simpa using hlt)]; rfl
        · rw [if_neg hlt, if_neg (by simpa using hlt)]; rfl

/-- What `strncpy` stores begins with the text of the source. -/
theorem take_of_strncpy {src d : Bytes} {n : Nat} (h : strncpy src n = .ok d)
    (hn : (text src).length ≤ n) : d.take (text src).length = text src := by
  induction src generalizing n d with
  | nil => simp
  | cons c cs ih =>
    by_cases hc : c = 0
    · simp [hc]
    · rw [text_cons_of_ne hc] at hn ⊢
      cases n with
      | zero => simp at hn
      | succ n =>
        rw [strncpy, if_neg hc] at h
        cases hrest : strncpy cs n with
        | error e => rw [hrest] at h; cases h
        | ok d' =>
          rw [hrest] at h
          cases h
          simp [ih hrest (by simpa using hn)]

/-- A C string copy stores as many bytes as it is asked for. -/
theorem length_of_strncpy {src d : Bytes} {n : Nat} (h : strncpy src n = .ok d) : d.length = n := by
  induction src generalizing n d with
  | nil =>
    cases n with
    | zero => cases h; rfl
    | succ n => cases h
  | cons c cs ih =>
    cases n with
    | zero => cases h; rfl
    | succ n =>
      rw [strncpy] at h
      split_ifs at h with hc
      · cases h
        exact List.length_replicate
      · cases hrest : strncpy cs n with
        | error e => rw [hrest] at h; cases h
        | ok rest =>
          rw [hrest] at h
          cases h
          exact congrArg (· + 1) (ih hrest)

/-- Each byte is the source's, or 0 from its first NUL on. -/
theorem getElem?_of_strncpy {src d : Bytes} {n i : Nat} (h : strncpy src n = .ok d) (hi : i < n) :
    d[i]? = if 0 ∈ src.take (i + 1) then some 0 else src[i]? := by
  induction src generalizing n d i with
  | nil =>
    cases n with
    | zero => exact absurd hi (Nat.not_lt_zero i)
    | succ n => cases h
  | cons c cs ih =>
    obtain ⟨n, rfl⟩ := Nat.exists_eq_add_one_of_ne_zero (Nat.ne_of_gt (Nat.zero_lt_of_lt hi))
    rw [strncpy] at h
    split_ifs at h with hc
    -- the NUL is the first byte
    · cases h
      subst hc
      simp [hi]
    · cases hrest : strncpy cs n with
      | error e => rw [hrest] at h; cases h
      | ok rest =>
        rw [hrest] at h
        cases h
        cases i with
        | zero => simp [Ne.symm hc]
        | succ i =>
          have hmem : 0 ∈ (c :: cs).take (i + 1 + 1) ↔ 0 ∈ cs.take (i + 1) := by
            simp [Ne.symm hc]
          have hi' := Nat.lt_of_succ_lt_succ hi
          rw [List.getElem?_cons_succ, List.getElem?_cons_succ, ih hrest hi']
          simp only [hmem]

theorem exists_strncpy {src : Bytes} {n : Nat} (h : n ≤ src.length) :
    ∃ d, strncpy src n = .ok d := by
  induction src generalizing n with
  | nil =>
    obtain rfl := Nat.le_zero.mp h
    exact ⟨[], rfl⟩
  | cons c cs ih =>
    cases n with
    | zero => exact ⟨[], rfl⟩
    | succ n =>
      obtain ⟨d, hd⟩ := ih (Nat.le_of_succ_le_succ h)
      rw [strncpy, hd]
      split_ifs
      · exact ⟨_, rfl⟩
      · exact ⟨_, rfl⟩

/-- From a string without a NUL so far, `strncpy` takes what it is asked for. -/
theorem strncpy_append {s : Bytes} {n : Nat} (hs : ∀ c ∈ s, c ≠ 0) (hn : n ≤ s.length) (r : Bytes) :
    strncpy (s ++ r) n = .ok (s.take n) := by
  induction s generalizing n with
  | nil =>
    obtain rfl := Nat.le_zero.mp hn
    cases r <;> rfl
  | cons c cs ih =>
    cases n with
    | zero => rfl
    | succ n =>
      rw [List.cons_append, strncpy, if_neg (hs c (List.mem_cons_self ..)),
        ih (fun x hx => hs x (List.mem_cons_of_mem _ hx)) (Nat.le_of_succ_le_succ hn)]
      rfl

/-- A text ends before the bytes do exactly when a NUL stands among them. -/
theorem length_text_lt_length_iff {l : Bytes} : (text l).length < l.length ↔ 0 ∈ l := by
  constructor
  · intro h
    obtain ⟨r, hr⟩ := eq_text_append_of_lt h
    rw [hr]
    exact List.mem_append_right _ (List.mem_cons_self ..)
  · intro h
    by_contra hfull
    have hself : text l = l :=
      (text_isPrefix l).eq_of_length (le_antisymm (length_text_le _) (Nat.le_of_not_lt hfull))
    exact ne_zero_of_mem_text (hself ▸ h) rfl

/-- The text of the C string at a position. -/
def stringAt (memory : Bytes) (pos : Nat) : Except Fault Bytes := do
  let n ← strlen (memory.drop pos)
  return (memory.drop pos).take n

theorem stringAt_eq (memory : Bytes) (pos : Nat) :
    stringAt memory pos =
      if 0 ∈ memory.drop pos then .ok (text (memory.drop pos)) else .error .outOfBounds := by
  simp only [stringAt, strlen_eq, length_text_lt_length_iff]
  split_ifs
  · simp only [bind, Except.bind, pure, Except.pure, take_length_text]
  · rfl

/-! ## Fixed character arrays -/

/-- A `char[n]`. -/
structure CharArray (n : Nat) where
  bytes : Bytes
  length_bytes : bytes.length = n
  deriving DecidableEq

namespace CharArray

variable {n : Nat}

theorem eq_of_bytes {a b : CharArray n} (h : a.bytes = b.bytes) : a = b := by
  cases a
  cases b
  cases h
  rfl

/-- The array after `memset(a, 0, sizeof(a))`. -/
def zero (n : Nat) : CharArray n := ⟨List.replicate n 0, List.length_replicate⟩

/-- The C string the array holds. -/
def str (a : CharArray n) : Bytes := text a.bytes

/-- Some byte of the array is NUL, so that reading its string stays inside it. -/
def Terminated (a : CharArray n) : Prop := a.str.length < n

@[simp] theorem str_zero : (zero n).str = [] := by
  cases n with
  | zero => rfl
  | succ n => simp [str, zero, List.replicate_succ]

theorem terminated_zero (h : 0 < n) : (zero n).Terminated := by
  simpa [Terminated] using h

/-- An array that holds the text `s`, filled up with NULs. -/
def ofText (n : Nat) (s : Bytes) (h : s.length < n) : CharArray n :=
  ⟨s ++ List.replicate (n - s.length) 0, by simp; omega⟩

theorem str_ofText {n : Nat} {s : Bytes} (h : s.length < n) (hs : ∀ c ∈ s, c ≠ 0) :
    (ofText n s h).str = s := by
  exact text_append_replicate hs (by omega)

/-- The array whose first bytes are these, filled up with NULs. -/
def ofBytes (n : Nat) (s : Bytes) : CharArray n := ⟨resize s n, length_resize s n⟩

@[simp] theorem ofBytes_nil (n : Nat) : ofBytes n [] = zero n := by
  simp [ofBytes, zero, resize]

theorem bytes_ofBytes {s : Bytes} (h : s.length ≤ n) :
    (ofBytes n s).bytes = s ++ List.replicate (n - s.length) 0 := resize_of_length_le h

theorem take_ofBytes {s : Bytes} (h : s.length ≤ n) : (ofBytes n s).bytes.take s.length = s := by
  rw [bytes_ofBytes h, List.take_left]

theorem str_ofBytes {s : Bytes} (h : s.length < n) (hs : ∀ c ∈ s, c ≠ 0) :
    (ofBytes n s).str = s := by
  rw [str, bytes_ofBytes h.le]
  exact text_append_replicate hs (by omega)

/-- Store `bs` from position `pos` on; a byte outside the array is a fault. -/
def store (a : CharArray n) (pos : Nat) (bs : Bytes) : Except Fault (CharArray n) :=
  if h : pos + bs.length ≤ n then
    .ok ⟨splice a.bytes pos bs, by
      rw [length_splice (by rw [a.length_bytes]; exact h), a.length_bytes]⟩
  else .error .outOfBounds

theorem store_eq_ok (a : CharArray n) (pos : Nat) (bs : Bytes) (h : pos + bs.length ≤ n) :
    ∃ a', a.store pos bs = .ok a' ∧ a'.bytes = splice a.bytes pos bs := by
  simp only [store, h, dite_true]
  exact ⟨_, rfl, rfl⟩

/-- Storing behind the first bytes of an array that is NUL from there on. -/
theorem store_ofBytes {s t : Bytes} (h : s.length + t.length ≤ n) :
    (ofBytes n s).store s.length t = .ok (ofBytes n (s ++ t)) := by
  have hbytes : splice (ofBytes n s).bytes s.length t = (ofBytes n (s ++ t)).bytes := by
    have hdrop : (List.replicate (n - s.length) (0 : UInt8)).drop t.length =
        List.replicate (n - (s ++ t).length) 0 := by
      rw [List.drop_replicate, List.length_append, Nat.sub_add_eq]
    rw [splice, bytes_ofBytes (by omega), bytes_ofBytes (by simpa using h), List.take_left,
      ← List.drop_drop, List.drop_left, hdrop]
  simp only [store, dif_pos h, hbytes]

/-- Storing at the front of an array of NULs. -/
theorem store_zero {s : Bytes} (h : s.length ≤ n) : (zero n).store 0 s = .ok (ofBytes n s) := by
  have hstore := store_ofBytes (n := n) (s := []) (t := s) (by simpa using h)
  rwa [ofBytes_nil, List.length_nil, List.nil_append] at hstore

/-- A NUL behind the first bytes changes nothing. -/
@[simp] theorem ofBytes_concat_zero (s : Bytes) : ofBytes n (s ++ [0]) = ofBytes n s := by
  simp [ofBytes]

theorem terminated_iff_mem {a : CharArray n} : a.Terminated ↔ 0 ∈ a.bytes := by
  rw [Terminated, str, ← length_text_lt_length_iff, a.length_bytes]

theorem terminated_ofBytes {s : Bytes} (h : s.length < n) : (ofBytes n s).Terminated := by
  rw [terminated_iff_mem, bytes_ofBytes h.le]
  have hpos : n - s.length ≠ 0 := by omega
  simp [hpos]

/-- Whatever is stored together with a NUL leaves the array terminated. -/
theorem terminated_of_store {a a' : CharArray n} {pos : Nat} {bs : Bytes}
    (h : a.store pos bs = .ok a') (hzero : 0 ∈ bs) : a'.Terminated := by
  simp only [store] at h
  split at h
  · cases h
    exact terminated_iff_mem.mpr (by simp [splice, hzero])
  · cases h

theorem strlen_bytes {a : CharArray n} (h : a.Terminated) : strlen a.bytes = .ok a.str.length := by
  rw [strlen_eq, if_pos (by rw [a.length_bytes]; exact h)]
  rfl

/-- The bytes in front of the NUL are the array's text. -/
theorem take_length_str (a : CharArray n) : a.bytes.take a.str.length = a.str :=
  take_length_text a.bytes

/-- A string stored with its NUL after a prefix without NUL extends that prefix. -/
theorem str_of_store {a a' : CharArray n} {s : Bytes} {pos : Nat}
    (h : a.store pos (s ++ [0]) = .ok a') (hpos : pos ≤ n)
    (hpre : ∀ c ∈ a.bytes.take pos, c ≠ 0) (hs : ∀ c ∈ s, c ≠ 0) :
    a'.str = a.bytes.take pos ++ s ∧ a'.Terminated := by
  simp only [store] at h
  split at h
  · rename_i hfit
    cases h
    have hstr : text (splice a.bytes pos (s ++ [0])) = a.bytes.take pos ++ s := by
      rw [splice, List.append_assoc, List.append_assoc, ← List.append_assoc, List.singleton_append]
      refine text_append_zero (fun c hc => ?_) _
      rcases List.mem_append.mp hc with hc | hc
      · exact hpre c hc
      · exact hs c hc
    refine ⟨hstr, ?_⟩
    have hlen := congrArg List.length hstr
    simp only [List.length_append, List.length_take, a.length_bytes] at hlen
    simp only [List.length_append, List.length_singleton] at hfit
    simp only [Terminated, str, hlen]
    omega
  · cases h

/-- `strncat(dst, src, k)`: the first `k` bytes of the source's text behind that of `dst`,
with a NUL after them. -/
def strncat (dst : CharArray n) (src : Bytes) (k : Nat) : Except Fault (CharArray n) := do
  let dlen ← strlen dst.bytes
  dst.store dlen (text (src.take k) ++ [0])

/-- Appending the whole text of a source succeeds exactly when both texts and a NUL fit. -/
theorem strncat_spec {dst : CharArray n} (hdst : dst.Terminated) (src : Bytes) :
    if dst.str.length + (text src).length < n then
      ∃ a, dst.strncat src (text src).length = .ok a ∧ a.str = dst.str ++ text src ∧ a.Terminated
    else dst.strncat src (text src).length = .error .outOfBounds := by
  have htake : text (src.take (text src).length) = text src := by
    rw [take_length_text, text_text]
  have hcat : dst.strncat src (text src).length =
      dst.store dst.str.length (text src ++ [0]) := by
    simp [strncat, strlen_bytes hdst, bind, Except.bind, htake]
  have hpre : ∀ c ∈ dst.bytes.take dst.str.length, c ≠ 0 := fun c hc => by
    rw [take_length_str] at hc
    exact ne_zero_of_mem_text hc
  split
  · rename_i hfit
    obtain ⟨a, hstore, -⟩ := store_eq_ok dst dst.str.length (text src ++ [0])
      (by simp; omega)
    have hstr := str_of_store hstore (le_of_lt hdst) hpre fun c hc => ne_zero_of_mem_text hc
    exact ⟨a, hcat.trans hstore, by rw [hstr.1, take_length_str], hstr.2⟩
  · rename_i hfit
    rw [hcat, store, dif_neg (by simp; omega)]

/-- `snprintf(a, sizeof(a), "%s", s)`: what fits of the text, and a NUL. -/
def snprintf (a : CharArray n) (s : Bytes) : Except Fault (CharArray n) :=
  a.store 0 (s.take (n - 1) ++ [0])

theorem snprintf_zero {s : Bytes} (h : s.length < n) :
    (zero n).snprintf s = .ok (ofBytes n s) := by
  have htake : s.take (n - 1) = s := List.take_of_length_le (by omega)
  rw [snprintf, htake, store_zero (by simp; omega), ofBytes_concat_zero]

/-- `snprintf` stays inside the array, whatever the text; what does not fit is cut off. -/
theorem exists_snprintf (a : CharArray (n + 1)) (s : Bytes) :
    ∃ a', a.snprintf s = .ok a' ∧ a'.str = text (s.take n) := by
  obtain ⟨a', hstore, hbytes⟩ := store_eq_ok a 0 (s.take (n + 1 - 1) ++ [0])
    (by rw [List.length_append, List.length_take, List.length_singleton]; omega)
  refine ⟨a', hstore, ?_⟩
  rw [str, hbytes, text_splice_zero, Nat.add_sub_cancel]

/-- Store bytes where the array's string ends, without a NUL behind them. -/
def extend (a : CharArray n) (bs : Bytes) : Except Fault (CharArray n) := do
  let len ← strlen a.bytes
  a.store len bs

theorem extend_ofBytes {s t : Bytes} (hs : ∀ c ∈ s, c ≠ 0) (hlt : s.length < n)
    (h : s.length + t.length ≤ n) : (ofBytes n s).extend t = .ok (ofBytes n (s ++ t)) := by
  have hlen : strlen (ofBytes n s).bytes = .ok s.length := by
    rw [strlen_bytes (terminated_ofBytes hlt), str_ofBytes hlt hs]
  simp only [extend, hlen, bind, Except.bind, store_ofBytes h]

end CharArray

/-! ## Letter case and numbers -/

/-- `tolower` in the C locale. -/
def toLower (c : UInt8) : UInt8 := if 65 ≤ c ∧ c ≤ 90 then c + 32 else c

theorem toLower_ne_zero {c : UInt8} (h : c ≠ 0) : toLower c ≠ 0 := by
  unfold toLower
  split_ifs with hcapital
  · obtain ⟨hlow, hhigh⟩ := hcapital
    have hlow' : 65 ≤ c.toNat := hlow
    have hhigh' : c.toNat ≤ 90 := hhigh
    intro hzero
    have hval := congrArg UInt8.toNat hzero
    rw [UInt8.toNat_add] at hval
    have hval' : (c.toNat + 32) % 256 = 0 := hval
    omega
  · exact h

/-- `strcasecmp(a, b) == 0`. -/
def SameName (a b : Bytes) : Prop := a.map toLower = b.map toLower

instance (a b : Bytes) : Decidable (SameName a b) := inferInstanceAs (Decidable (_ = _))

/-- `strncasecmp(a, b, n)`: the difference of the first two characters that differ in more than their
case; a character outside its object is a fault. -/
def strncasecmp : Bytes → Bytes → Nat → Except Fault Int
  | _, _, 0 => .ok 0
  | a :: as, b :: bs, n + 1 =>
    if toLower a ≠ toLower b ∨ a = 0 then .ok ((toLower a).toNat - (toLower b).toNat)
    else strncasecmp as bs n
  | _, _, _ + 1 => .error .outOfBounds

/-- A word compared with the start of a string: nothing behind the string's NUL is read. -/
theorem strncasecmp_eq {word s : Bytes} (hword : ∀ c ∈ word, c ≠ 0) (r : Bytes) :
    ∃ d, strncasecmp word (s ++ 0 :: r) word.length = .ok d ∧
      (d = 0 ↔ SameName word (s.take word.length)) := by
  induction word generalizing s with
  | nil => exact ⟨0, rfl, iff_of_true rfl rfl⟩
  | cons w word ih =>
    have hw : w ≠ 0 := hword w (List.mem_cons_self ..)
    have hdiff (c : UInt8) (hc : toLower w ≠ toLower c) :
        ((toLower w).toNat : Int) - (toLower c).toNat ≠ 0 := by
      intro hzero
      exact hc (UInt8.toNat_inj.mp (by omega))
    cases s with
    | nil =>
      have hc : toLower w ≠ toLower 0 := toLower_ne_zero hw
      refine ⟨_, if_pos (.inl hc), iff_of_false (hdiff 0 hc) fun hsame => ?_⟩
      cases hsame
    | cons c s =>
      by_cases hc : toLower w = toLower c
      · obtain ⟨d, hd, hiff⟩ := ih (s := s) fun x hx => hword x (List.mem_cons_of_mem _ hx)
        refine ⟨d, ?_, hiff.trans ?_⟩
        · rw [List.cons_append, List.length_cons, strncasecmp, if_neg (by simp [hc, hw]), hd]
        · simp [SameName, hc]
      · refine ⟨_, if_pos (.inl hc), iff_of_false (hdiff c hc) fun hsame => ?_⟩
        exact hc (List.cons.inj hsame).1

/-- The digits `%d` prints. -/
def decimal (n : Nat) : Bytes := (Nat.toDigits 10 n).map fun c => c.toNat.toUInt8

/-- A digit of `decimal`. -/
theorem mem_decimal {n : Nat} {c : UInt8} (h : c ∈ decimal n) : 48 ≤ c ∧ c ≤ 57 := by
  obtain ⟨d, hd, rfl⟩ := List.mem_map.mp h
  have hdigit := Nat.isDigit_of_mem_toDigits (by decide) (by decide) hd
  simp only [Char.isDigit, Bool.and_eq_true, decide_eq_true_eq] at hdigit
  have hlow : 48 ≤ d.toNat := hdigit.1
  have hhigh : d.toNat ≤ 57 := hdigit.2
  simp only [Nat.toUInt8, UInt8.le_iff_toNat_le, UInt8.toNat_ofNat', UInt8.reduceToNat]
  omega

theorem ne_zero_of_mem_decimal {n : Nat} {c : UInt8} (h : c ∈ decimal n) : c ≠ 0 := by
  rintro rfl
  exact absurd (mem_decimal h).1 (by decide)

theorem length_decimal_le {n k : Nat} (hk : 0 < k) (h : n < 10 ^ k) : (decimal n).length ≤ k := by
  rw [decimal, List.length_map]
  exact (Nat.length_toDigits_le_iff (by decide) hk).mpr h

/-! ## Conversion to `int` -/

/-- The value of a `size_t` after the implicit conversion to a 32-bit `int`. -/
def toInt32 (n : Nat) : Int :=
  if n % 2 ^ 32 < 2 ^ 31 then (n % 2 ^ 32 : Nat) else (n % 2 ^ 32 : Nat) - (2 ^ 32 : Nat)

theorem toInt32_of_lt {n : Nat} (h : n < 2 ^ 31) : toInt32 n = n := by
  have hmod : n % 2 ^ 32 = n := Nat.mod_eq_of_lt (h.trans (by decide))
  rw [toInt32, hmod, if_pos h]

theorem toInt32_le (n : Nat) : toInt32 n ≤ n := by
  have hmod := Nat.mod_le n (2 ^ 32)
  unfold toInt32
  split <;> omega

theorem toInt32_eq_bmod (n : Nat) : toInt32 n = Int.bmod n (2 ^ 32) := by
  rw [Int.bmod_def]
  unfold toInt32
  split <;> split <;> omega

/-- A sum of `int`s, wrapped. -/
theorem toInt32_add (m n : Nat) : (toInt32 m + n).bmod (2 ^ 32) = toInt32 (m + n) := by
  rw [toInt32_eq_bmod, toInt32_eq_bmod, Int.bmod_add_bmod, Int.natCast_add]

/-- The number of times a loop is gone through up to a length that is kept in an `int`. -/
def intLength (s : Bytes) : Nat := (toInt32 s.length).toNat

theorem intLength_le (s : Bytes) : intLength s ≤ s.length := by
  have hle := toInt32_le s.length
  unfold intLength
  omega

theorem intLength_lt (s : Bytes) : intLength s < 2 ^ 31 := by
  have hmod := Nat.mod_lt s.length (show 0 < 2 ^ 32 by decide)
  unfold intLength toInt32
  split <;> omega

theorem intLength_of_lt {s : Bytes} (h : s.length < 2 ^ 31) : intLength s = s.length := by
  rw [intLength, toInt32_of_lt h, Int.toNat_natCast]

end CMemory
