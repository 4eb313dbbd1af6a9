import Mathlib.Data.List.Basic
import Mathlib.Data.Nat.Basic

/-!
# Compressing a message block by block

A message is cut into blocks of `size` bytes, which are compressed one after the other.

- `absorb`: the state after all the full blocks of a message; `rest`: what is left of it
- `absorb_append`, `rest_append`: of a message only its state and its rest matter to what follows
- `hash`: the state after a message with its padding
-/

namespace BlockHash

variable {σ β : Type*}

/-- The state after the first `count` blocks. -/
def absorbBlocks (compress : σ → List β → σ) (size : Nat) (s : σ) (bytes : List β) : Nat → σ
  | 0 => s
  | count + 1 =>
    absorbBlocks compress size (compress s (bytes.take size)) (bytes.drop size) count

/-- The state after all full blocks. -/
def absorb (compress : σ → List β → σ) (size : Nat) (s : σ) (bytes : List β) : σ :=
  absorbBlocks compress size s bytes (bytes.length / size)

/-- What is behind the full blocks. -/
def rest (size : Nat) (bytes : List β) : List β := bytes.drop (size * (bytes.length / size))

/-- The state after a message and its padding. -/
def hash (compress : σ → List β → σ) (size : Nat) (s : σ) (padding : List β → List β)
    (bytes : List β) : σ := absorb compress size s (bytes ++ padding bytes)

variable {compress : σ → List β → σ} {size : Nat} {s : σ} {a b block bytes : List β}

theorem length_rest (bytes : List β) : (rest size bytes).length = bytes.length % size := by
  rw [rest, List.length_drop, Nat.mod_eq_sub_mul_div]

theorem rest_of_lt (h : bytes.length < size) : rest size bytes = bytes := by
  rw [rest, Nat.div_eq_of_lt h, Nat.mul_zero, List.drop_zero]

theorem absorb_of_lt (h : bytes.length < size) : absorb compress size s bytes = s := by
  rw [absorb, Nat.div_eq_of_lt h]
  rfl

/-- One more block. -/
theorem blocks_succ (hsize : 0 < size) (hblock : block.length = size) (bytes : List β) :
    (block ++ bytes).length / size = bytes.length / size + 1 := by
  rw [List.length_append, hblock, Nat.add_comm, Nat.add_div_right _ hsize]

theorem rest_block (hsize : 0 < size) (hblock : block.length = size) (bytes : List β) :
    rest size (block ++ bytes) = rest size bytes := by
  rw [rest, blocks_succ hsize hblock, Nat.mul_succ, Nat.add_comm, ← List.drop_drop, ← hblock,
    List.drop_left]
  rfl

theorem absorb_block (hsize : 0 < size) (hblock : block.length = size) (bytes : List β) :
    absorb compress size s (block ++ bytes) = absorb compress size (compress s block) bytes := by
  have htake : (block ++ bytes).take size = block := by rw [← hblock, List.take_left]
  have hdrop : (block ++ bytes).drop size = bytes := by rw [← hblock, List.drop_left]
  rw [absorb, blocks_succ hsize hblock, absorbBlocks, htake, hdrop]
  rfl

/-- A message is its first block and the others. -/
theorem exists_block (h : size ≤ bytes.length) :
    ∃ block rest, bytes = block ++ rest ∧ block.length = size :=
  ⟨bytes.take size, bytes.drop size, (List.take_append_drop ..).symm, by
    rw [List.length_take, Nat.min_eq_left h]⟩

/-- **Streaming**: what follows a message is absorbed behind its rest. -/
theorem absorb_append (hsize : 0 < size) (s : σ) (a b : List β) :
    absorb compress size s (a ++ b) =
      absorb compress size (absorb compress size s a) (rest size a ++ b) := by
  induction hn : a.length using Nat.strong_induction_on generalizing a s with
  | h n ih =>
    rcases Nat.lt_or_ge a.length size with hlt | hle
    · rw [rest_of_lt hlt, absorb_of_lt hlt]
    -- the first block is absorbed on both sides
    · obtain ⟨block, a, rfl, hblock⟩ := exists_block hle
      have hshort : a.length < n := by
        rw [List.length_append] at hn
        omega
      rw [List.append_assoc, absorb_block hsize hblock, absorb_block hsize hblock,
        rest_block hsize hblock]
      exact ih a.length hshort _ a rfl

theorem rest_append (hsize : 0 < size) (a b : List β) :
    rest size (a ++ b) = rest size (rest size a ++ b) := by
  induction hn : a.length using Nat.strong_induction_on generalizing a with
  | h n ih =>
    rcases Nat.lt_or_ge a.length size with hlt | hle
    · rw [rest_of_lt hlt]
    · obtain ⟨block, a, rfl, hblock⟩ := exists_block hle
      have hshort : a.length < n := by
        rw [List.length_append] at hn
        omega
      rw [List.append_assoc, rest_block hsize hblock, rest_block hsize hblock]
      exact ih a.length hshort a rfl

end BlockHash
