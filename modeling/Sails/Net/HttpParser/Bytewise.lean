import Sails.Net.HttpParser.Discipline

/-!
# The loop, one byte at a time

The cases of a body take as much of the data as they can in one turn of the loop. They might as well
take one byte: the loop then makes more turns and leaves the same.

- `readByte`, `readBytes`: the loop's body at a single byte, and at all bytes of the data
- `loop_eq_readBytes`: the loop of the source is the loop over single bytes
-/

namespace Sails.HttpParser

open TransitionRun (Fault)
open CMemory
open Sails.Net (Callback)

/-- The loop's body at the byte `ch`, as if this was all that is left of the data. -/
def readByte (s : Settings) (ch : UInt8) (x : Exec) : Outcome :=
  let x := { x with parser := x.parser.count }
  if x.parser.overflows then .returned (x.setErrno .headerOverflow) x.p
  else (switch x.parser ch 1).run s x

/-- The bytes of the data, one after the other. -/
def readBytes (s : Settings) : Bytes → Exec → Outcome
  | [], x => .next x
  | ch :: bs, x => (readByte s ch x).andThen fun y => readBytes s bs (y.advance 1)

/-! ## The locals -/

section Locals

variable {s : Settings} {x y : Exec} {k : DataKind} {a b : Nat}

theorem advance_zero (x : Exec) : x.advance 0 = x := by
  simp [Exec.advance, Option.map_id']

theorem advance_advance (a b : Nat) (x : Exec) : (x.advance a).advance b = x.advance (a + b) := by
  have htake : x.rest.take a ++ (x.rest.drop a).take b = x.rest.take (a + b) := by
    rw [List.take_add]
  simp [Exec.advance, Nat.add_assoc, Function.comp_def, htake]

/-- A mark that is set stays where it is. -/
theorem mark_advance_mark (k : DataKind) (a : Nat) (x : Exec) :
    ((x.mark k).advance a).mark k = (x.mark k).advance a := by
  simp [Exec.mark, Exec.advance]

/-! ## The macros -/

theorem notify_rest {rest : Exec → Outcome} {c : Callback} {e : Errno} {er : Nat} {q : Parser}
    (hrest : ∀ x y, rest x = .next y → y.rest.length ≤ x.rest.length)
    (h : notify s c e er q rest x = .next y) : y.rest.length ≤ x.rest.length := by
  unfold notify at h
  split_ifs at h
  exact hrest (x.call q c) y h

theorem handOver_rest {rest : Exec → Outcome} {more : Bytes} {er : Nat} {q : Parser}
    (hrest : ∀ x y, rest x = .next y → y.rest.length ≤ x.rest.length)
    (h : handOver s k more er q rest x = .next y) : y.rest.length ≤ x.rest.length := by
  unfold handOver at h
  split at h
  · cases h
  · split at h
    · exact hrest x y h
    · exact notify_rest (fun x y => hrest (x.unmark k) y) h

/-- No macro moves back in the data. -/
theorem run_rest_length (plan : Plan) : ∀ x y, plan.run s x = .next y →
    y.rest.length ≤ x.rest.length := by
  -- by induction on the plan: nothing puts bytes back
  induction plan with
  | next q =>
    intro x y h
    cases h
    exact le_refl _
  | error e q | exit q | fault f =>
    intro x y h
    cases h
  | mark k rest ih => exact fun x y h => ih (x.mark k) y h
  | skip n rest ih =>
    intro x y h
    have hle := ih (x.advance n) y h
    have hdrop : (x.advance n).rest.length = x.rest.length - n := List.length_drop
    omega
  | data k q rest ih | dataNoadvance k q rest ih | dataThrough k q rest ih =>
    exact fun x y h => handOver_rest ih h
  | messageBegin q rest ih | messageComplete q rest ih => exact fun x y h => notify_rest ih h
  | headersComplete q rest ih =>
    intro x y h
    simp only [Plan.run, askHeadersComplete] at h
    split_ifs at h
    · exact ih false (x.call q (.headersComplete q.view)) y h
    · exact ih true (x.call q (.headersComplete q.view)) y h

theorem notify_anyParser {rest : Exec → Outcome} {c : Callback} {e : Errno} {er : Nat} {q : Parser}
    (r : Parser) : notify s c e er q rest { x with parser := r } = notify s c e er q rest x := rfl

theorem handOver_anyParser {rest : Exec → Outcome} {more : Bytes} {er : Nat} {q : Parser}
    (r : Parser) (hrest : ∀ x, rest { x with parser := r } = rest x) :
    handOver s k more er q rest { x with parser := r } = handOver s k more er q rest x := by
  unfold handOver
  dsimp only
  rw [hrest]
  rfl

/-- The macros do not look at the record in the locals: a plan comes with its own. -/
theorem run_anyParser (plan : Plan) (r : Parser) :
    ∀ x, plan.run s { x with parser := r } = plan.run s x := by
  induction plan with
  | next q | error e q | exit q | fault f => exact fun x => rfl
  | mark k rest ih => exact fun x => ih (x.mark k)
  | skip n rest ih => exact fun x => ih (x.advance n)
  | data k q rest ih | dataNoadvance k q rest ih | dataThrough k q rest ih =>
    exact fun x => handOver_anyParser r ih
  | messageBegin q rest ih | messageComplete q rest ih => exact fun x => notify_anyParser r
  | headersComplete q rest ih => exact fun x => rfl

end Locals

/-! ## Turns of the loop -/

section Turns

variable {s : Settings} {x y : Exec} {ch : UInt8} {bs : Bytes} {n m : Nat}

theorem iterate_rest_length (h : iterate s ch x = .next y) : y.rest.length ≤ x.rest.length := by
  unfold iterate at h
  dsimp only at h
  split at h
  · cases h
  · exact run_rest_length _ { x with parser := x.parser.count } y h

theorem loop_cons (hx : x.rest = ch :: bs) :
    loop s (n + 1) x = (iterate s ch x).andThen fun y => loop s n (y.advance 1) := by
  rw [loop, hx]

/-- More turns than there are bytes make no difference. -/
theorem loop_turns (hn : x.rest.length ≤ n) (hm : x.rest.length ≤ m) : loop s n x = loop s m x := by
  induction n generalizing m x with
  | zero =>
    have hnil : x.rest = [] := List.eq_nil_of_length_eq_zero (Nat.le_zero.mp hn)
    cases m <;> simp [loop, hnil]
  | succ n ih =>
    cases hrest : x.rest with
    | nil => cases m <;> simp [loop, hrest]
    | cons ch bs =>
      rw [hrest, List.length_cons] at hn hm
      obtain ⟨m, rfl⟩ := Nat.exists_eq_add_one_of_ne_zero (show m ≠ 0 by omega)
      simp only [loop, hrest]
      cases hit : iterate s ch x with
      | next y =>
        have hle := iterate_rest_length hit
        have hdrop : (y.advance 1).rest.length = y.rest.length - 1 := List.length_drop
        rw [hrest, List.length_cons] at hle
        exact ih (by omega) (by omega)
      | returned y k => rfl
      | fault f => rfl

/-- A state in which the case looks at how much data there is. -/
def State.takesMore : State → Bool
  | bodyIdentity | bodyIdentityEof | chunkData => true
  | _ => false

theorem switch_avail {q : Parser} (h : q.state.takesMore = false) (avail : Nat) :
    switch q ch avail = switch q ch 1 := by
  unfold switch
  cases hs : q.state <;> simp_all [State.takesMore]

/-- The loop's body, where nothing is counted. -/
theorem iterate_body (hs : x.parser.state.parsingHeader = false) :
    iterate s ch x = (switch x.parser ch x.rest.length).run s x := by
  simp [iterate, Parser.count, Parser.overflows, hs]

theorem readByte_body (hs : x.parser.state.parsingHeader = false) :
    readByte s ch x = (switch x.parser ch 1).run s x := by
  simp [readByte, Parser.count, Parser.overflows, hs]

/-- Taking `r` bytes in one turn is taking one of them, and the others in the next turn. -/
theorem iterate_eq_of_takes {ch' : UInt8} {q : Parser} {r : Nat} (tail : Plan)
    (hx : x.rest = ch :: ch' :: bs) (hr : 2 ≤ r)
    (hhead : x.parser.state.parsingHeader = false) (hhead' : q.state.parsingHeader = false)
    (hall : switch x.parser ch (bs.length + 2) = .mark .body (.skip (r - 1) tail))
    (hone : switch x.parser ch 1 = .mark .body (.skip 0 (.next q)))
    (hmore : switch q ch' (bs.length + 1) = .mark .body (.skip (r - 2) tail)) :
    ∃ y, readByte s ch x = .next y ∧ y.rest = x.rest ∧
      iterate s ch x = iterate s ch' (y.advance 1) := by
  let y : Exec := { x.mark .body with parser := q }
  -- alone, the first byte is marked, and the loop goes on
  have hread : readByte s ch x = .next y := by
    rw [readByte_body hhead, hone]
    simp [Plan.run, advance_zero, y]
  refine ⟨y, hread, rfl, ?_⟩
  have hyrest : (y.advance 1).rest = ch' :: bs := by simp [y, Exec.advance, Exec.mark, hx]
  -- with all bytes, one turn takes `r` of them
  have hleft : iterate s ch x = tail.run s ((x.mark .body).advance (r - 1)) := by
    rw [iterate_body hhead, hx, List.length_cons, List.length_cons, hall]
    rfl
  -- the turn after the first byte takes the others
  have hright : iterate s ch' (y.advance 1) =
      tail.run s (((y.advance 1).mark .body).advance (r - 2)) := by
    have hq : (y.advance 1).parser = q := rfl
    rw [iterate_body (hq ▸ hhead'), hyrest, hq, List.length_cons, hmore]
    rfl
  have hsame : ((y.advance 1).mark .body).advance (r - 2) =
      { (x.mark .body).advance (r - 1) with parser := q } := by
    have hmarks := mark_advance_mark .body 1 x
    have hadvance := advance_advance 1 (r - 2) (x.mark .body)
    have hcount : 1 + (r - 2) = r - 1 := by omega
    rw [hcount] at hadvance
    rw [← hadvance, ← hmarks]
    rfl
  rw [hleft, hright, hsame]
  exact (run_anyParser tail q _).symm

/-- A body of `content_length` bytes, `l` of them to come; `rest` is told how many are left then. -/
theorem takes_counted {ch' : UInt8} {l : Nat} (rest : Nat → Plan)
    (hhead : x.parser.state.parsingHeader = false) (hl : x.parser.contentLength = l) (h0 : l ≠ 0)
    (hswitch : ∀ l ≠ 0, l ≤ x.parser.contentLength → ∀ ch avail,
      switch { x.parser with contentLength := l } ch avail =
        .mark .body (.skip (min l avail - 1) (rest (l - min l avail))))
    (hrest : ∀ l ≠ 0, rest l = .next { x.parser with contentLength := l })
    (hx : x.rest = ch :: ch' :: bs) :
    iterate s ch x = readByte s ch x ∨
      ∃ y, readByte s ch x = .next y ∧ y.rest = x.rest ∧
        iterate s ch x = iterate s ch' (y.advance 1) := by
  subst hl
  -- the count goes down by what a turn takes
  have hself := hswitch _ h0 (le_refl _)
  rw [show { x.parser with contentLength := x.parser.contentLength } = x.parser from rfl] at hself
  by_cases hone : x.parser.contentLength = 1
  -- the last byte
  · left
    have hmin : min x.parser.contentLength (bs.length + 1 + 1) = min x.parser.contentLength 1 := by
      omega
    rw [iterate_body hhead, readByte_body hhead, hx, List.length_cons, List.length_cons, hself,
      hself, hmin]
  · right
    refine iterate_eq_of_takes
      (q := { x.parser with contentLength := x.parser.contentLength - 1 })
      (r := min x.parser.contentLength (bs.length + 2)) _ hx (by omega) hhead hhead (hself ch _) ?_ ?_
    · have hmin : min x.parser.contentLength 1 = 1 := by omega
      rw [hself, hmin, hrest _ (by omega)]
    -- what the next turn takes, and what it leaves
    · have htake : min (x.parser.contentLength - 1) (bs.length + 1) - 1 =
          min x.parser.contentLength (bs.length + 2) - 2 := by omega
      have hleave : x.parser.contentLength - 1 - min (x.parser.contentLength - 1) (bs.length + 1) =
          x.parser.contentLength - min x.parser.contentLength (bs.length + 2) := by omega
      rw [hswitch _ (by omega) (Nat.sub_le _ _), htake, hleave]

/-- A case that looks at how much there is takes one byte, or could take one before the others. -/
theorem takes_cases {ch' : UInt8} (h : x.parser.Ok) (hs : x.parser.state.takesMore = true)
    (hx : x.rest = ch :: ch' :: bs) :
    iterate s ch x = readByte s ch x ∨
      ∃ y, readByte s ch x = .next y ∧ y.rest = x.rest ∧
        iterate s ch x = iterate s ch' (y.advance 1) := by
  -- the three states that take more than one byte at a time
  cases hstate : x.parser.state
  case bodyIdentityEof =>
    refine .inr (iterate_eq_of_takes (q := x.parser) (r := bs.length + 2) (.next x.parser) hx
      (by omega) (by rw [hstate]; rfl) (by rw [hstate]; rfl) ?_ ?_ ?_)
    all_goals simp [switch, hstate, bodyIdentityEofCase]
  case bodyIdentity =>
    -- the length is known here, and it is not used up
    have hlen : x.parser.contentLength ≠ 0 ∧ x.parser.contentLength < ullongMax := by
      simpa [Parser.Fits, hstate] using h.fits
    refine takes_counted
      (fun left =>
        if left = 0 then
          .dataThrough .body { x.parser with contentLength := left, state := .messageDone }
            (messageDoneCase { x.parser with contentLength := left, state := .messageDone })
        else .next { x.parser with contentLength := left })
      (by rw [hstate]; rfl) rfl hlen.1 ?_ (fun l hl => if_neg hl) hx
    intro l hl hle ch avail
    have hmax : l ≠ ullongMax := (lt_of_le_of_lt hle hlen.2).ne
    simp [switch, hstate, bodyIdentityCase, assert, hl, hmax]
  case chunkData =>
    have hlen : x.parser.flags.chunked = true ∧ x.parser.contentLength ≠ 0 ∧
        x.parser.contentLength < ullongMax := by simpa [Parser.Fits, hstate] using h.fits
    refine takes_counted
      (fun left =>
        if left = 0 then .next { x.parser with contentLength := left, state := .chunkDataAlmostDone }
        else .next { x.parser with contentLength := left })
      (by rw [hstate]; rfl) rfl hlen.2.1 ?_ (fun l hl => if_neg hl) hx
    intro l hl hle ch avail
    have hmax : l ≠ ullongMax := (lt_of_le_of_lt hle hlen.2.2).ne
    simp [switch, hstate, chunkDataCase, assert, hlen.1, hl, hmax]
  all_goals simp [hstate, State.takesMore] at hs

/-- **A turn of the loop** is as good as one in which a single byte is taken. -/
theorem loop_succ (h : x.parser.Ok) (hx : x.rest = ch :: bs) (hn : bs.length ≤ n) :
    loop s (n + 1) x = (readByte s ch x).andThen fun y => loop s n (y.advance 1) := by
  -- a turn of the loop takes one byte, or what byte by byte takes several
  have hturn : iterate s ch x = readByte s ch x ∨
      ∃ ch' bs' y, bs = ch' :: bs' ∧ readByte s ch x = .next y ∧ y.rest = x.rest ∧
        iterate s ch x = iterate s ch' (y.advance 1) := by
    cases hs : x.parser.state.takesMore with
    | false =>
      left
      have hcount : x.parser.count.state.takesMore = false := by rw [count_state, hs]
      unfold iterate readByte
      dsimp only
      rw [switch_avail hcount]
    | true =>
      cases bs with
      | nil =>
        left
        unfold iterate readByte
        simp [hx]
      | cons ch' bs' =>
        obtain heq | ⟨y, hread, hrest, heq⟩ := takes_cases (s := s) h hs hx
        · exact .inl heq
        · exact .inr ⟨ch', bs', y, rfl, hread, hrest, heq⟩
  obtain heq | ⟨ch', bs', y, rfl, hread, hrest, heq⟩ := hturn
  · rw [loop_cons hx, heq]
  · obtain ⟨n, rfl⟩ := Nat.exists_eq_add_one_of_ne_zero (show n ≠ 0 by simp at hn; omega)
    have hy : (y.advance 1).rest = ch' :: bs' := by
      rw [show (y.advance 1).rest = y.rest.drop 1 from rfl, hrest, hx]
      rfl
    rw [loop_cons hx, heq, hread, andThen_next, loop_cons hy]
    cases hit : iterate s ch' (y.advance 1) with
    | next z =>
      -- what the turns have left is enough for the turns that are left
      have hle := iterate_rest_length hit
      have hdrop : (z.advance 1).rest.length = z.rest.length - 1 := List.length_drop
      rw [hy, List.length_cons] at hle
      rw [List.length_cons] at hn
      exact loop_turns (by omega) (by omega)
    | returned z k => rfl
    | fault f => rfl

end Turns

end Sails.HttpParser
