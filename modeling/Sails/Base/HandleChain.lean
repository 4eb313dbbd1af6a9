import Mathlib.Data.List.Basic
import Mathlib.Data.UInt

/-!
# `HandleChain` and `FilterChain` (`base/handle.h`, `base/filter.h`)

A chain gives a call to one handler after the other; the place of the next one is kept in the chain,
and each handler goes on by calling the chain again.

- `ChainIndex`: the integer the place is kept in
- `CallChain.call`: one call of a chain, with the calls its handlers make
- `CallChain.call_eq`, `CallChain.call_overflow`: the call of a chain whose handlers pass on
- `CallChain.invokesAll_iff`: the calls that reach every handler
- `chains_iff`: `HandleChain` and `FilterChain`, whose index is never set back
-/

namespace Sails.Base

/-! ## The index -/

/-- An integer type that counts the handlers: the value it has when it is compared with `size()`, and
what `index++` makes of it, unless it overflows. Below `limit` it counts as it should. -/
structure ChainIndex (ι : Type) where
  first : ι
  value : ι → Nat
  next : ι → Option ι
  limit : Nat
  limit_pos : 0 < limit
  value_first : value first = 0
  next_of_lt : ∀ i, value i + 1 < limit → ∃ j, next i = some j ∧ value j = value i + 1
  next_lt : ∀ i j, value i < limit → next i = some j → value j < limit

/-- `uint32_t index`, which begins again at 0. -/
def handleIndex : ChainIndex UInt32 where
  first := 0
  value := UInt32.toNat
  next i := some (i + 1)
  limit := 2 ^ 32
  limit_pos := by decide
  value_first := rfl
  next_of_lt := by
    intro i hi
    refine ⟨i + 1, rfl, ?_⟩
    rw [UInt32.toNat_add]
    exact Nat.mod_eq_of_lt hi
  next_lt _ j _ _ := j.toNat_lt

theorem toInt_add_one {i : Int32} (h : i.toInt + 1 < 2 ^ 31) : (i + 1).toInt = i.toInt + 1 := by
  have hlow := i.le_toInt
  have hone : (1 : Int32).toInt = 1 := by decide
  rw [Int32.toInt_add, hone]
  exact Int.bmod_eq_of_le (by omega) (by omega)

/-- `int index`, converted to `size_t` for the comparison; its overflow is not defined. -/
def filterIndex : ChainIndex Int32 where
  first := 0
  value i := (i.toInt % 2 ^ 64).toNat
  next i := if i = Int32.maxValue then none else some (i + 1)
  limit := 2 ^ 31
  limit_pos := by decide
  value_first := rfl
  next_of_lt := by
    intro i hi
    have hlow := i.le_toInt
    have hhigh := i.toInt_lt
    have hne : i ≠ Int32.maxValue := by
      rintro rfl
      exact absurd hi (by decide)
    refine ⟨i + 1, if_neg hne, ?_⟩
    rw [toInt_add_one (by omega)]
    omega
  next_lt := by
    intro i j hi hj
    have hlow := i.le_toInt
    have hhigh := i.toInt_lt
    split_ifs at hj with hmax
    cases hj
    have hne : i.toInt ≠ 2 ^ 31 - 1 := by
      rw [← Int32.toInt_maxValue]
      exact fun h => hmax (Int32.toInt_inj.mp h)
    rw [toInt_add_one (by omega)]
    omega

/-! ## The chain -/

/-- A chain: its handlers, where `none` is NULL, the place of the next one, and the invocations that
have been made. -/
structure CallChain (ι η τ υ : Type) where
  chain : List (Option η)
  index : ι
  invoked : List (η × τ × υ)

namespace CallChain

variable {ι η τ υ : Type}

/-- The constructor. -/
def new (I : ChainIndex ι) : CallChain ι η τ υ := ⟨[], I.first, []⟩

/-- `push_back`. -/
def add (c : CallChain ι η τ υ) (handler : Option η) : CallChain ι η τ υ :=
  { c with chain := c.chain ++ [handler] }

/-- A call with `t` and `u`, in at most so many nested calls. `calls` are the calls of the chain that
a handler makes. -/
def call (I : ChainIndex ι) (calls : η → τ → υ → List (τ × υ)) :
    Nat → CallChain ι η τ υ → τ → υ → Option (CallChain ι η τ υ)
  | 0, _, _, _ => none
  | fuel + 1, c, t, u =>
    if c.chain.length > I.value c.index then
      match I.next c.index, c.chain[I.value c.index]? with
      | some index, some (some handler) =>
        (calls handler t u).foldlM (fun c a => call I calls fuel c a.1 a.2)
          { c with index := index, invoked := c.invoked ++ [(handler, t, u)] }
      | some index, _ => some { c with index := index }
      | none, _ => none
    else some c

/-- A chain to which these handlers have been added. -/
def ofHandlers (I : ChainIndex ι) (handlers : List η) : CallChain ι η τ υ :=
  handlers.foldl (fun c handler => c.add (some handler)) (new I)

/-- **Every one of these calls reaches all the handlers**: it returns, and has invoked each of them
once, in the order they were added, with its `t` and `u`. -/
def InvokesAll (call : Nat → CallChain ι η τ υ → τ → υ → Option (CallChain ι η τ υ))
    (handlers : List η) (c : CallChain ι η τ υ) : List (τ × υ) → Prop
  | [] => True
  | (t, u) :: external =>
    ∃ fuel c', call fuel c t u = some c' ∧
      c'.invoked = c.invoked ++ handlers.map (fun handler => (handler, t, u)) ∧
      InvokesAll call handlers c' external

/-! ## One call -/

section Call

variable {I : ChainIndex ι} {calls : η → τ → υ → List (τ × υ)} {handlers : List η}
  {c c' : CallChain ι η τ υ} {t : τ} {u : υ} {fuel : Nat}

theorem foldl_add (handlers : List η) (c : CallChain ι η τ υ) :
    handlers.foldl (fun c handler => c.add (some handler)) c =
      { c with chain := c.chain ++ handlers.map some } := by
  induction handlers generalizing c with
  | nil =>
    rw [List.map_nil, List.append_nil]
    rfl
  | cons handler handlers ih =>
    rw [List.foldl_cons, ih, add, List.append_assoc]
    rfl

theorem ofHandlers_eq (I : ChainIndex ι) (handlers : List η) :
    (ofHandlers I handlers : CallChain ι η τ υ) = ⟨handlers.map some, I.first, []⟩ :=
  foldl_add handlers (new I)

/-- Behind the last handler a call does nothing. -/
theorem call_end (hend : c.chain.length ≤ I.value c.index) (h : call I calls fuel c t u = some c') :
    c' = c := by
  cases fuel with
  | zero => cases h
  | succ fuel =>
    rw [call, if_neg (Nat.not_lt.mpr hend)] at h
    exact (Option.some.inj h).symm

variable (hpass : ∀ handler t u, calls handler t u = [(t, u)]) (hchain : c.chain = handlers.map some)

include hpass hchain

/-- A handler that passes on: the rest is the call it makes. -/
theorem call_succ (hlt : I.value c.index < handlers.length) :
    call I calls (fuel + 1) c t u =
      (I.next c.index).bind fun index =>
        call I calls fuel
          { c with index := index, invoked := c.invoked ++ [(handlers[I.value c.index], t, u)] }
          t u := by
  have hget : c.chain[I.value c.index]? = some (some handlers[I.value c.index]) := by
    rw [hchain, List.getElem?_map, List.getElem?_eq_getElem hlt]
    rfl
  have hlen : c.chain.length > I.value c.index := by
    rw [hchain, List.length_map]
    exact hlt
  rw [call, if_pos hlen, hget]
  cases I.next c.index with
  | none => rfl
  | some index =>
    simp only [hpass, List.foldlM_cons, List.foldlM_nil, bind_pure]
    rfl

/-- With more handlers than the index can count, the call never returns as it should. -/
theorem call_overflow (hlimit : I.limit ≤ handlers.length) (hindex : I.value c.index < I.limit) :
    call I calls fuel c t u = none := by
  induction fuel generalizing c with
  | zero => rfl
  | succ fuel ih =>
    rw [call_succ hpass hchain (by omega)]
    cases hnext : I.next c.index with
    | none => rfl
    | some index => exact ih hchain (I.next_lt _ _ hindex hnext)

/-- **What a call leaves behind**: the index at the end, and the handlers from its place on
invoked. -/
theorem call_spec (hlimit : handlers.length < I.limit) (hindex : I.value c.index ≤ handlers.length)
    (h : call I calls fuel c t u = some c') :
    c'.chain = c.chain ∧ I.value c'.index = handlers.length ∧ c'.invoked = c.invoked ++
      (handlers.drop (I.value c.index)).map fun handler => (handler, t, u) := by
  induction fuel generalizing c with
  | zero => cases h
  | succ fuel ih =>
    by_cases hlt : I.value c.index < handlers.length
    · obtain ⟨index, hnext, hvalue⟩ := I.next_of_lt c.index (by omega)
      rw [call_succ hpass hchain hlt, hnext, Option.bind_some] at h
      obtain ⟨hsame, hend, hinvoked⟩ := ih (c := { c with index := index, invoked := _ }) hchain
        (show I.value index ≤ handlers.length by omega) h
      refine ⟨hsame, hend, ?_⟩
      rw [hinvoked]
      simp only [hvalue]
      rw [List.drop_eq_getElem_cons hlt, List.map_cons, List.append_assoc,
        List.singleton_append]
    · have hall : I.value c.index = handlers.length := by omega
      have hlen : c.chain.length ≤ I.value c.index := by
        rw [hchain, List.length_map]
        omega
      rw [call_end hlen h, hall, List.drop_length, List.map_nil, List.append_nil]
      exact ⟨rfl, rfl, rfl⟩

/-- The call returns. -/
theorem call_returns (hlimit : handlers.length < I.limit)
    (hindex : I.value c.index + fuel = handlers.length) :
    ∃ c', call I calls (fuel + 1) c t u = some c' := by
  induction fuel generalizing c with
  | zero =>
    have hlen : ¬c.chain.length > I.value c.index := by
      rw [hchain, List.length_map]
      omega
    exact ⟨c, by rw [call, if_neg hlen]⟩
  | succ fuel ih =>
    have hlt : I.value c.index < handlers.length := by omega
    obtain ⟨index, hnext, hvalue⟩ := I.next_of_lt c.index (by omega)
    rw [call_succ hpass hchain hlt, hnext]
    exact ih hchain (show I.value index + fuel = handlers.length by omega)

end Call

/-! ## All the calls -/

section Calls

variable {I : ChainIndex ι} {calls : η → τ → υ → List (τ × υ)}

/-- A chain without handlers has none to miss. -/
theorem invokesAll_nil (c : CallChain ι η τ υ) (hchain : c.chain = []) (external : List (τ × υ)) :
    InvokesAll (call I calls) [] c external := by
  induction external with
  | nil => trivial
  | cons a external ih =>
    refine ⟨1, c, ?_, ?_, ih⟩
    · rw [call, if_neg (by simp [hchain])]
    · rw [List.map_nil, List.append_nil]

/-- **Which calls reach all the handlers**: the first one only, as long as the index can count them. -/
theorem invokesAll_iff (hpass : ∀ handler t u, calls handler t u = [(t, u)]) (handlers : List η)
    (external : List (τ × υ)) :
    InvokesAll (call I calls) handlers (ofHandlers I handlers) external ↔
      external = [] ∨ handlers = [] ∨ external.length = 1 ∧ handlers.length < I.limit := by
  rw [ofHandlers_eq]
  by_cases hnil : handlers = []
  · subst hnil
    exact iff_of_true (invokesAll_nil _ rfl external) (.inr (.inl rfl))
  have hpos : 0 < handlers.length := List.length_pos_iff.mpr hnil
  cases external with
  | nil => exact iff_of_true trivial (.inl rfl)
  | cons a external =>
    obtain ⟨t, u⟩ := a
    have hfirst : I.value I.first = 0 := I.value_first
    by_cases hlimit : handlers.length < I.limit
    swap
    · refine iff_of_false ?_ ?_
      · rintro ⟨fuel, c', hcall, -⟩
        rw [call_overflow hpass rfl (Nat.le_of_not_lt hlimit) (hfirst ▸ I.limit_pos)] at hcall
        cases hcall
      · rintro (h | h | h)
        · cases h
        · exact hnil h
        · exact hlimit h.2
    constructor
    · rintro ⟨fuel, c', hcall, -, hrest⟩
      obtain ⟨hchain, hend, -⟩ := call_spec hpass rfl hlimit (hfirst ▸ Nat.zero_le _) hcall
      refine .inr (.inr ⟨?_, hlimit⟩)
      cases external with
      | nil => rfl
      | cons b external =>
        -- the second call finds the index at the end
        obtain ⟨fuel', c'', hcall', hinvoked, -⟩ := hrest
        have hlen : c'.chain.length ≤ I.value c'.index := by
          rw [hchain, hend, List.length_map]
        rw [call_end hlen hcall'] at hinvoked
        have hnone := List.self_eq_append_right.mp hinvoked
        exact absurd (List.map_eq_nil_iff.mp hnone) hnil
    · rintro (h | h | ⟨h, -⟩)
      · cases h
      · exact absurd h hnil
      have hone : external = [] := List.length_eq_zero_iff.mp (Nat.succ.inj h)
      subst hone
      obtain ⟨c', hcall⟩ := call_returns (t := t) (u := u) hpass
        (c := ⟨handlers.map some, I.first, []⟩) rfl hlimit
        (show I.value I.first + handlers.length = handlers.length by omega)
      obtain ⟨-, -, hinvoked⟩ := call_spec hpass rfl hlimit (hfirst ▸ Nat.zero_le _) hcall
      refine ⟨_, c', hcall, ?_, trivial⟩
      rw [hinvoked]
      simp only [hfirst, List.drop_zero]

end Calls

end CallChain

/-! ## The two chains -/

/-- `HandleChain<T, U>`. -/
abbrev HandleChain (η τ υ : Type) := CallChain UInt32 η τ υ

/-- `FilterChain<T, U>`. -/
abbrev FilterChain (η τ υ : Type) := CallChain Int32 η τ υ

section Chains

variable {η τ υ : Type} (calls : η → τ → υ → List (τ × υ))

/-- `HandleChain::do_handle`. -/
def HandleChain.doHandle : Nat → HandleChain η τ υ → τ → υ → Option (HandleChain η τ υ) :=
  CallChain.call handleIndex calls

/-- `FilterChain::do_filter`. -/
def FilterChain.doFilter : Nat → FilterChain η τ υ → τ → υ → Option (FilterChain η τ υ) :=
  CallChain.call filterIndex calls

/-- **When a chain can be used**: a `HandleChain` or `FilterChain` of handlers that pass on invokes all
of them in its first call only, since nothing sets the index back; and in that call if the index can
count them. -/
theorem chains_iff (hpass : ∀ handler t u, calls handler t u = [(t, u)]) (handlers : List η)
    (external : List (τ × υ)) :
    (CallChain.InvokesAll (HandleChain.doHandle calls) handlers
        (CallChain.ofHandlers handleIndex handlers) external ↔
      external = [] ∨ handlers = [] ∨ external.length = 1 ∧ handlers.length < 2 ^ 32) ∧
    (CallChain.InvokesAll (FilterChain.doFilter calls) handlers
        (CallChain.ofHandlers filterIndex handlers) external ↔
      external = [] ∨ handlers = [] ∨ external.length = 1 ∧ handlers.length < 2 ^ 31) :=
  ⟨CallChain.invokesAll_iff hpass handlers external, CallChain.invokesAll_iff hpass handlers external⟩

/-- Two handlers, one call. -/
theorem chains_once :
    CallChain.InvokesAll (HandleChain.doHandle fun (_ : Bool) t u => [(t, u)]) [false, true]
      (CallChain.ofHandlers handleIndex [false, true]) [(3, 5)] ∧
    CallChain.InvokesAll (FilterChain.doFilter fun (_ : Bool) t u => [(t, u)]) [false, true]
      (CallChain.ofHandlers filterIndex [false, true]) [(3, 5)] :=
  have h := chains_iff (fun (_ : Bool) (t u : Nat) => [(t, u)]) (fun _ _ _ => rfl) [false, true]
    [(3, 5)]
  ⟨h.1.mpr (by decide), h.2.mpr (by decide)⟩

/-- One handler, two calls: the second one invokes nothing. -/
theorem chains_twice :
    ¬CallChain.InvokesAll (HandleChain.doHandle fun (_ : Unit) t u => [(t, u)]) [()]
      (CallChain.ofHandlers handleIndex [()]) [(3, 5), (3, 5)] := by
  rintro ⟨fuel, c, hcall, -, fuel', c', hcall', hinvoked, -⟩
  have hone : (CallChain.ofHandlers handleIndex [()] : HandleChain Unit Nat Nat).chain =
      [()].map some := rfl
  obtain ⟨hchain, hend, -⟩ :=
    CallChain.call_spec (fun _ _ _ => rfl) hone (by decide) (by decide) hcall
  have hlen : c.chain.length ≤ handleIndex.value c.index := by
    rw [hchain, hend]
    decide
  rw [CallChain.call_end hlen hcall'] at hinvoked
  cases List.self_eq_append_right.mp hinvoked

end Chains

end Sails.Base
