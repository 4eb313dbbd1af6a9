import Sails.Library.Run
import Sails.Net.HttpParser.Bytewise

/-!
# Runs of the parser

What every turn of the loop, every call of `http_parser_execute` and every sequence of calls keeps,
whatever the data are and whatever the callbacks answer.

- `Exec.Ready`: the locals at the start of a turn
- `run_fine`, `readByte_fine`, `loop_fine`: one case, one byte, all bytes
- `execute_fine`: a call
- `calls_safe`: any sequence of calls runs into no assertion
-/

namespace Sails.HttpParser

open TransitionRun
open CMemory
open Sails.Net (Callback)

/-! ## Marks of one run -/

/-- Only the mark of `k` is set, and this is the text behind it. -/
def onlyMark (k : DataKind) (text : Bytes) : DataKind → Option Bytes :=
  Function.update (fun _ => none) k (some text)

/-- The marks are as the class says. -/
def MarkClass.Holds (m : MarkClass) (x : Exec) : Prop :=
  match m with
  | .clear => x.marks = fun _ => none
  | .set k => ∃ text, x.marks = onlyMark k text
  | .behind _ => False

/-- The locals at the start of a turn. -/
def Exec.Ready (x : Exec) : Prop := x.parser.Ok ∧ ∃ m : MarkClass, m.Starts x.parser ∧ m.Holds x

/-- How a case may end that began at `x`. -/
def Outcome.Fine (x : Exec) : Outcome → Prop
  | .next y => (∃ m : MarkClass, m.Ends y.parser.state ∧ m.Holds y) ∧ y.parser.Ok ∧
      y.rest = x.rest ∧ y.p = x.p
  | .returned y n => n ≤ x.p + 1 ∧
      (y.parser.errno = .ok → n = x.p + 1 ∧ y.parser.Ok ∧ y.parser.upgrade = true)
  | .fault _ => False

section Marks

variable {m : MarkClass} {k l : DataKind} {x : Exec} {text : Bytes} {q : Parser}

theorem update_onlyMark (k : DataKind) (text : Bytes) (o : Option Bytes) :
    Function.update (onlyMark k text) k o = Function.update (fun _ => none) k o := by
  simp [onlyMark]

theorem onlyMark_self (k : DataKind) (text : Bytes) : onlyMark k text k = some text := by
  simp [onlyMark]

theorem onlyMark_ne (h : l ≠ k) (text : Bytes) : onlyMark k text l = none := by
  simp [onlyMark, h]

/-- Setting a mark that may be set. -/
theorem holds_mark (h : m.Holds x) (hk : m.Marks k) : (MarkClass.set k).Holds (x.mark k) := by
  cases m with
  | clear => exact ⟨[], by simp [Exec.mark, show x.marks = _ from h, onlyMark]⟩
  | set l =>
    obtain ⟨text, htext⟩ := h
    obtain rfl : l = k := hk
    exact ⟨text, by simp [Exec.mark, htext, onlyMark]⟩
  | behind view => exact h.elim

theorem holds_unmark (h : x.marks = onlyMark k text) : MarkClass.clear.Holds (x.unmark k) := by
  simp only [MarkClass.Holds, Exec.unmark, h, update_onlyMark, Function.update_eq_self_iff]

/-- The text behind a mark grows with `p`. -/
theorem marks_advance (h : x.marks = onlyMark k text) (n : Nat) :
    (x.advance n).marks = onlyMark k (text ++ x.rest.take n) := by
  funext l
  by_cases hl : l = k
  · subst hl
    simp [Exec.advance, h, onlyMark_self]
  · simp [Exec.advance, h, onlyMark_ne hl]

theorem holds_advance (h : m.Holds x) (n : Nat) : m.Holds (x.advance n) := by
  cases m with
  | clear => simp [MarkClass.Holds, Exec.advance, show x.marks = _ from h]
  | set k =>
    obtain ⟨text, htext⟩ := h
    exact ⟨text ++ x.rest.take n, marks_advance htext n⟩
  | behind view => exact h.elim

/-- The marks at the end of a turn are those for the start of the next. -/
theorem starts_of_ends (h : m.Ends q.state) : m.Starts q := by
  unfold MarkClass.Starts
  cases m with
  | clear =>
    have hnone : q.state.resumes = none := h
    simp [hnone]
  | set k =>
    obtain hk | ⟨rfl, hbody⟩ := h
    · simp [hk]
    · have hnone : q.state.resumes = none := by
        cases hs : q.state <;> simp_all [State.inBody, State.resumes]
      simp [hnone, hbody]
  | behind view => exact h.elim

end Marks

/-! ## Turns of the loop -/

section Turns

variable {s : Settings} {m : MarkClass} {k : DataKind} {x : Exec} {q : Parser} {ch : UInt8}
variable {bs : Bytes} {rest : Exec → Outcome} {more : Bytes} {er : Nat}

/-- Outcomes that are fine at `x` are fine where the position and the data are the same. -/
theorem Outcome.Fine.congr {o : Outcome} {y : Exec} (h : o.Fine y) (hrest : y.rest = x.rest)
    (hp : y.p = x.p) : o.Fine x := by
  unfold Outcome.Fine at h ⊢
  cases o <;> simp_all

theorem notify_fine {c : Callback} {e : Errno} (hq : q.Sound) (he : e ≠ .ok) (her : er ≤ x.p + 1)
    (hrest : (rest (x.call q c)).Fine x) : (notify s c e er q rest x).Fine x := by
  unfold notify
  rw [if_neg (not_not.mpr hq.1)]
  split_ifs
  · exact ⟨her, fun hok => absurd hok he⟩
  · exact hrest

theorem handOver_fine (h : m.Holds x) (hk : m.HandsOver k q) (hq : q.Sound) (her : er ≤ x.p + 1)
    (hrest : ∀ y, MarkClass.clear.Holds y → y.rest = x.rest → y.p = x.p → (rest y).Fine x) :
    (handOver s k more er q rest x).Fine x := by
  have herrno : k.errno ≠ .ok := by cases k <;> simp [DataKind.errno]
  unfold handOver
  rw [if_neg (not_not.mpr hq.1)]
  cases m with
  | clear =>
    rw [show x.marks k = none by rw [show x.marks = _ from h]]
    exact hrest x h rfl rfl
  | set l =>
    obtain ⟨text, htext⟩ := h
    obtain rfl : l = k := hk
    rw [htext, onlyMark_self]
    have hcall : (x.call q (l.callback q (text ++ more))).marks = onlyMark l text := htext
    exact notify_fine hq herrno her (hrest _ (holds_unmark hcall) rfl rfl)
  | behind view => exact h.elim

/-- A case that keeps to the rules ends well, whatever the callbacks answer. -/
theorem run_fine {plan : Plan} (hd : plan.Disciplined m) (hm : m.Holds x) :
    (plan.run s x).Fine x := by
  induction plan generalizing m x with
  | next q => exact ⟨⟨m, hd.1, hm⟩, hd.2, rfl, rfl⟩
  | error e q => exact ⟨Nat.le_succ _, fun hok => absurd hok hd⟩
  | mark k rest ih => exact (ih hd.2 (holds_mark hm hd.1)).congr rfl rfl
  | skip n rest ih =>
    obtain ⟨rfl, hrest⟩ := hd
    rw [Plan.run, advance_zero]
    exact ih hrest hm
  | data k q rest ih =>
    exact handOver_fine hm hd.1 hd.2.1 (le_refl _)
      fun y hy hrest hp => (ih hd.2.2 hy).congr hrest hp
  | dataNoadvance k q rest ih =>
    exact handOver_fine hm hd.1 hd.2.1 (Nat.le_succ _)
      fun y hy hrest hp => (ih hd.2.2 hy).congr hrest hp
  | dataThrough k q rest ih =>
    obtain ⟨rfl, hq, hrest⟩ := hd
    exact handOver_fine hm rfl hq (Nat.le_succ _)
      fun y hy hrest' hp => (ih hrest hy).congr hrest' hp
  | messageBegin q rest ih | messageComplete q rest ih =>
    obtain ⟨rfl, hq, hrest⟩ := hd
    have hcall : ∀ c, MarkClass.clear.Holds (x.call q c) := fun _ => hm
    exact notify_fine hq (by simp) (le_refl _) ((ih hrest (hcall _)).congr rfl rfl)
  | headersComplete q rest ih =>
    obtain ⟨rfl, -, hrest⟩ := hd
    have hcall : MarkClass.clear.Holds (x.call q (.headersComplete q.view)) := hm
    unfold Plan.run askHeadersComplete
    dsimp only
    split_ifs
    · exact (ih false (hrest false) hcall).congr rfl rfl
    · exact (ih true (hrest true) hcall).congr rfl rfl
    · exact ⟨Nat.le_succ _, fun hok => by simp [Exec.setErrno] at hok⟩
  | exit q => exact ⟨le_refl _, fun _ => ⟨rfl, hd.2.2.1, hd.2.2.2⟩⟩
  | fault f => exact hd.elim

/-- A byte is taken without an assertion that fails. -/
theorem readByte_fine (h : x.Ready) : (readByte s ch x).Fine x := by
  obtain ⟨hok, m, hstarts, hm⟩ := h
  unfold readByte
  dsimp only
  split_ifs
  · exact ⟨Nat.le_succ _, fun hok => by simp [Exec.setErrno] at hok⟩
  · exact (run_fine (switch_disciplined hok hstarts ch)
      (show m.Holds { x with parser := x.parser.count } from hm)).congr rfl rfl

/-- The turn after one that ended at the end of the switch. -/
theorem ready_of_fine {y : Exec} (h : (Outcome.next y).Fine x) (hx : x.rest = ch :: bs) :
    (y.advance 1).Ready ∧ (y.advance 1).rest = bs ∧ (y.advance 1).p = x.p + 1 := by
  obtain ⟨⟨m, hends, hm⟩, hok, hrest, hp⟩ := h
  refine ⟨⟨hok, m, starts_of_ends hends, holds_advance hm 1⟩, ?_, ?_⟩
  · rw [show (y.advance 1).rest = y.rest.drop 1 from rfl, hrest, hx, List.drop_one, List.tail_cons]
  · rw [show (y.advance 1).p = y.p + 1 from rfl, hp]

/-- **The loop of the source is the loop over single bytes.** -/
theorem loop_eq_readBytes {n : Nat} (h : x.Ready) (hx : x.rest = bs) (hn : bs.length ≤ n) :
    loop s n x = readBytes s bs x := by
  induction bs generalizing n x with
  | nil => cases n <;> simp [loop, hx, readBytes]
  | cons ch bs ih =>
    obtain ⟨n, rfl⟩ := Nat.exists_eq_add_one_of_ne_zero (show n ≠ 0 by simp at hn; omega)
    have hle : bs.length ≤ n := Nat.le_of_succ_le_succ hn
    have hfine : (readByte s ch x).Fine x := readByte_fine h
    rw [loop_succ h.1 hx hle, readBytes]
    cases hread : readByte s ch x with
    | next y =>
      rw [hread] at hfine
      obtain ⟨hready, hrest, -⟩ := ready_of_fine hfine hx
      exact ih hready hrest hle
    | returned y k => rfl
    | fault f => rfl

/-- How the loop may end that began at `x`. -/
def Outcome.Done (x : Exec) : Outcome → Prop
  | .next y => y.Ready ∧ y.p = x.p + x.rest.length ∧ y.rest = []
  | .returned y n => n ≤ x.p + x.rest.length ∧
      (y.parser.errno = .ok → x.p < n ∧ y.parser.Ok ∧ y.parser.upgrade = true)
  | .fault _ => False

/-- A loop that ends well a byte later ends well. -/
theorem Outcome.Done.back {o : Outcome} {y : Exec} (h : o.Done y)
    (hp : y.p = x.p + 1) (hrest : x.rest.length = y.rest.length + 1) : o.Done x := by
  cases o with
  | next z => exact ⟨h.1, by have heq := h.2.1; omega, h.2.2⟩
  | returned z n =>
    obtain ⟨hle, hok⟩ := h
    exact ⟨by omega, fun he => ⟨by have hlt := (hok he).1; omega, (hok he).2⟩⟩
  | fault f => exact h.elim

theorem readBytes_done (h : x.Ready) (hx : x.rest = bs) : (readBytes s bs x).Done x := by
  induction bs generalizing x with
  | nil => exact ⟨h, by simp [hx], hx⟩
  | cons ch bs ih =>
    have hfine : (readByte s ch x).Fine x := readByte_fine h
    rw [readBytes]
    cases hread : readByte s ch x with
    | next y =>
      rw [hread] at hfine
      obtain ⟨hready, hrest, hp⟩ := ready_of_fine hfine hx
      exact (ih hready hrest).back hp (by rw [hrest, hx, List.length_cons])
    | returned y n =>
      rw [hread] at hfine
      rw [andThen_returned]
      obtain ⟨hle, hok⟩ := hfine
      refine ⟨by rw [hx, List.length_cons]; omega, fun he => ?_⟩
      exact ⟨by have heq := (hok he).1; omega, (hok he).2⟩
    | fault f =>
      rw [hread] at hfine
      exact hfine

end Turns

/-! ## Calls -/

section Calls

variable {s : Settings} {x y : Exec} {q : Parser} {made : List Callback} {data : Bytes}

/-- The record between two calls: as it has to be, unless there was an error. -/
def Parser.Legal (q : Parser) : Prop := q.errno = .ok → q.Ok

theorem init_ok (t : ParserType) : (Parser.init t).Ok := by
  cases t <;> exact ⟨⟨rfl, Nat.zero_le _⟩, trivial⟩

/-- The marks at the start of the data are those of the state. -/
theorem ready_start (h : q.Ok) (made : List Callback) (data : Bytes) :
    Exec.Ready ⟨q, startMarks q.state, 0, data, made⟩ := by
  refine ⟨h, ?_⟩
  unfold MarkClass.Starts
  dsimp only
  cases hr : q.state.resumes with
  | none => exact ⟨.clear, .inl rfl, by funext k; simp [startMarks, hr]⟩
  | some k =>
    refine ⟨.set k, rfl, [], ?_⟩
    funext l
    by_cases hl : l = k
    · subst hl
      simp [startMarks, hr, onlyMark_self]
    · simp [startMarks, hr, onlyMark_ne hl, Ne.symm hl]

/-- At most one mark is set. -/
theorem marks_le_one (h : x.Ready) :
    (DataKind.all.filter fun k => (x.marks k).isSome).length ≤ 1 := by
  obtain ⟨-, m, -, hm⟩ := h
  cases m with
  | clear => simp [DataKind.all, show x.marks = _ from hm]
  | set k =>
    obtain ⟨text, htext⟩ := hm
    rw [htext]
    cases k <;> simp [DataKind.all, onlyMark]
  | behind view => exact hm.elim

/-- Without a mark there is nothing to hand over at the end of the data. -/
theorem run_leftover_clear (h : x.marks = fun _ => none) (he : q.errno = .ok) :
    (leftover q).run s x = .next { x with parser := q } := by
  simp [leftover, Plan.run, handOver, h, he]

/-- The one mark that is set is handed over at the end of the data. -/
theorem run_leftover_set {k : DataKind} {text : Bytes} (h : x.marks = onlyMark k text)
    (he : q.errno = .ok) :
    (leftover q).run s x = notify s (k.callback q text) k.errno x.p q
      (fun y => .next { y.unmark k with parser := q }) x := by
  have hself := onlyMark_self k text
  cases k <;>
    simp [leftover, Plan.run, handOver, notify, h, he, onlyMark, Exec.unmark, Exec.call]

/-- What a call leaves that was given `len` bytes. -/
structure Executed.Fine (len : Nat) (r : Executed) : Prop where
  legal : r.parser.Legal
  parsed_le : r.parsed ≤ len
  /-- without an error, something was parsed -/
  parsed_pos : r.parser.errno = .ok → 0 < r.parsed
  /-- without an error, all was parsed, or the connection is upgraded -/
  parsed_all : r.parser.errno = .ok → r.parsed = len ∨ r.parser.upgrade = true

theorem finish_fine {len : Nat} (h : x.Ready) (hp : x.p = len) (hlen : 0 < len) :
    ∃ r, finish s len x = .ok r ∧ r.Fine len := by
  have hone := marks_le_one h
  obtain ⟨hok, m, -, hm⟩ := h
  unfold finish
  rw [if_pos hone]
  have herr := hok.sound.1
  cases m with
  | clear =>
    rw [run_leftover_clear hm herr]
    exact ⟨_, rfl, fun _ => hok, le_refl _, fun _ => hlen, fun _ => .inl rfl⟩
  | set k =>
    obtain ⟨text, htext⟩ := hm
    rw [run_leftover_set htext herr]
    unfold notify
    rw [if_neg (not_not.mpr herr)]
    split_ifs
    · have hbad : ((x.call x.parser (k.callback x.parser text)).setErrno k.errno).parser.errno ≠
          .ok := by cases k <;> simp [Exec.setErrno, DataKind.errno]
      exact ⟨_, rfl, fun he => absurd he hbad, hp.le, fun he => absurd he hbad,
        fun he => absurd he hbad⟩
    · exact ⟨_, rfl, fun _ => hok, le_refl _, fun _ => hlen, fun _ => .inl rfl⟩
  | behind view => exact hm.elim

/-- **A call** with data runs into no assertion, and keeps the record legal. -/
theorem execute_fine (made : List Callback) (h : q.Legal) (he : q.errno = .ok) (hdata : data ≠ []) :
    ∃ r, execute s q made data = .ok r ∧ r.Fine data.length := by
  have hready := ready_start (h he) made data
  have hdone := readBytes_done (s := s) hready rfl
  have hloop := loop_eq_readBytes (s := s) hready rfl (le_refl data.length)
  unfold execute
  rw [if_neg (not_not.mpr he), if_neg hdata, hloop]
  dsimp only at hdone ⊢
  cases hread : readBytes s data ⟨q, startMarks q.state, 0, data, made⟩ with
  | next x =>
    rw [hread] at hdone
    obtain ⟨hx, hp, -⟩ := hdone
    exact finish_fine hx (hp.trans (Nat.zero_add _)) (List.length_pos_iff.mpr hdata)
  | returned x n =>
    rw [hread] at hdone
    obtain ⟨hle, hok⟩ := hdone
    exact ⟨_, rfl, fun he => (hok he).2.1, hle.trans (Nat.zero_add _).le, fun he => (hok he).1,
      fun he => .inr (hok he).2.2⟩
  | fault f =>
    rw [hread] at hdone
    exact hdone.elim

/-- The end of the stream leaves the record legal. -/
theorem executeEof_legal (h : q.Legal) (he : q.errno = .ok) :
    (executeEof s q made).parser.Legal := by
  have hok := h he
  unfold executeEof
  split
  · dsimp only
    split_ifs
    · exact fun he => by simp at he
    · exact h
  all_goals first
    | exact h
    | exact fun he => by simp at he

theorem execute_legal (made : List Callback) (data : Bytes) (h : q.Legal) :
    ∃ r, execute s q made data = .ok r ∧ r.parser.Legal := by
  by_cases he : q.errno = .ok
  · by_cases hdata : data = []
    · exact ⟨executeEof s q made, by rw [execute, if_neg (not_not.mpr he), if_pos hdata],
        executeEof_legal h he⟩
    · obtain ⟨r, hr, hfine⟩ := execute_fine (s := s) made h he hdata
      exact ⟨r, hr, hfine.legal⟩
  · exact ⟨⟨q, made, 0⟩, by rw [execute, if_pos he], h⟩

/-- A new parser. -/
def Executed.start (t : ParserType) : Executed := ⟨.init t, [], 0⟩

/-- One more call. -/
def call (s : Settings) (r : Executed) (data : Bytes) : Except Fault Executed :=
  execute s r.parser r.made data

/-- **The parser is safe.** Whatever the calls are given, and whatever the callbacks answer, no
assertion fails and no access is out of bounds. A call parses no more than it is given. It parses
all of it unless there is an error or the connection is upgraded, and then at least one byte. -/
theorem execute_safe (s : Settings) (t : ParserType) (calls : List Bytes) (data : Bytes) :
    ∃ r r', run (call s) (.start t) calls = .ok r ∧ call s r data = .ok r' ∧
      (data ≠ [] → r'.parsed ≤ data.length ∧
        (r'.parser.errno = .ok →
          0 < r'.parsed ∧ (r'.parsed = data.length ∨ r'.parser.upgrade = true))) := by
  obtain ⟨r, hrun, hr⟩ : ∃ r, run (call s) (.start t) calls = .ok r ∧ r.parser.Legal :=
    run_ok (P := fun _ _ => True) (I := fun r : Executed => r.parser.Legal)
      (fun r data h _ => execute_legal r.made data h) (fun _ => init_ok t)
      (along_of_forall (p := fun _ => True) fun _ _ => trivial)
  by_cases he : r.parser.errno = .ok
  · by_cases hdata : data = []
    · obtain ⟨r', hr', -⟩ := execute_legal (s := s) r.made data hr
      exact ⟨r, r', hrun, hr', fun hne => absurd hdata hne⟩
    · obtain ⟨r', hr', hfine⟩ := execute_fine (s := s) r.made hr he hdata
      exact ⟨r, r', hrun, hr', fun _ => ⟨hfine.parsed_le, fun he' =>
        ⟨hfine.parsed_pos he', hfine.parsed_all he'⟩⟩⟩
  · exact ⟨r, ⟨r.parser, r.made, 0⟩, hrun, by rw [call, execute, if_pos he],
      fun _ => ⟨Nat.zero_le _, fun he' => absurd he' he⟩⟩

end Calls

end Sails.HttpParser
