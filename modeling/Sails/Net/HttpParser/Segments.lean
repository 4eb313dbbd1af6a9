import Sails.Library.Coalesce
import Sails.Net.HttpParser.Runs

/-!
# The parser does not depend on how the data is cut

A connection's bytes arrive in segments, and the parser is called for each. Against these calls
stands an automaton that reads one byte after the other and is never called: its marks stay where
they are until a text ends. Both make the same callbacks, but for the places where a text is cut.

- `pieces`: the pieces of a text belong together
- `scanByte`, `scan`: the automaton
- `MarkClass.Relates`: a run of the automaton beside one of the parser
- `run_agrees`, `readByte_agrees`, `execute_follows`, `feed_follows`: a case, a byte, a call, a
  connection
- `feed_segments`: two cuttings of the same bytes
-/

namespace Sails.HttpParser

open TransitionRun (Fault)
open CMemory
open Coalesce
open Sails.Net (Callback)

/-! ## Pieces of a text -/

/-- Which text a callback brings a piece of. -/
def pieceKind : Callback → Option DataKind
  | .requestUrl _ => some .url
  | .responseStatus _ => some .status
  | .headerField _ => some .headerField
  | .headerValue _ => some .headerValue
  | .body _ _ => some .body
  | .messageBegin | .headersComplete _ | .messageComplete _ => none

/-- Two pieces of a text in one; a body is handed over with the parser at its end. -/
def joinPieces : Callback → Callback → Callback
  | .requestUrl a, .requestUrl b => .requestUrl (a ++ b)
  | .responseStatus a, .responseStatus b => .responseStatus (a ++ b)
  | .headerField a, .headerField b => .headerField (a ++ b)
  | .headerValue a, .headerValue b => .headerValue (a ++ b)
  | .body _ a, .body p b => .body p (a ++ b)
  | _, c => c

/-- The pieces of a text belong together. -/
def pieces : Joins Callback DataKind where
  kind := pieceKind
  join := joinPieces
  kind_join a b h := by cases a <;> cases b <;> first | rfl | cases h
  join_assoc a b c hab hbc := by
    cases a <;> cases b <;> cases hab <;> cases c <;> cases hbc <;>
      simp only [joinPieces, List.append_assoc]

/-- The callbacks with the pieces of every text put together. -/
abbrev whole (made : List Callback) : List Callback := coalesce pieces made

section Pieces

variable {k : DataKind} {q q' : Parser} {t u : Bytes} {l l' m : List Callback}

theorem joinable_callback (k : DataKind) (q q' : Parser) (t u : Bytes) :
    pieces.Joinable (k.callback q t) (k.callback q' u) := by
  cases k <;> exact ⟨rfl, rfl⟩

theorem join_callback (k : DataKind) (q q' : Parser) (t u : Bytes) :
    pieces.join (k.callback q t) (k.callback q' u) = k.callback q' (t ++ u) := by
  cases k <;> rfl

/-- A text in two pieces. -/
theorem whole_two_pieces (l : List Callback) (k : DataKind) (q q' : Parser) (t u : Bytes) :
    whole (l ++ [k.callback q t, k.callback q' u]) = whole (l ++ [k.callback q' (t ++ u)]) := by
  rw [← join_callback k q q' t u]
  exact coalesce_join (joinable_callback k q q' t u) l []

theorem whole_body_pieces (l : List Callback) (p p' : Net.HttpParser) (t u : Bytes) :
    whole (l ++ [.body p t, .body p' u]) = whole (l ++ [.body p' (t ++ u)]) := by
  have hjoin : pieces.Joinable (.body p t) (.body p' u) := ⟨rfl, rfl⟩
  exact coalesce_join hjoin l []

theorem whole_append (h : whole l = whole l') (m : List Callback) :
    whole (l ++ m) = whole (l' ++ m) := coalesce_append_congr h rfl

/-- One more piece of a text, behind both. -/
theorem whole_more (h : ∀ q, whole (l ++ [k.callback q t]) = whole (l' ++ [k.callback q u]))
    (more : Bytes) (q : Parser) :
    whole (l ++ [k.callback q (t ++ more)]) = whole (l' ++ [k.callback q (u ++ more)]) := by
  have happend := whole_append (h q) [k.callback q more]
  simpa only [List.append_assoc, List.cons_append, List.nil_append, whole_two_pieces] using happend

end Pieces

/-! ## The automaton -/

/-- Callbacks that bring a piece of a text succeed. -/
def Settings.AcceptsData (s : Settings) : Prop :=
  ∀ made (k : DataKind) q text, s made (k.callback q text) = 0

/-- The answers do not depend on where texts were cut. -/
def Settings.SeesWhole (s : Settings) : Prop :=
  ∀ made made' c, whole made = whole made' → s made c = s made' c

/-- Read one byte; after an error none is read. `p` counts the bytes. -/
def scanByte (s : Settings) (x : Exec) (ch : UInt8) : Except Fault Exec :=
  if x.parser.errno ≠ .ok then .ok x
  else
    match readByte s ch { x with rest := [ch] } with
    | .next y => .ok (y.advance 1)
    | .returned y n => .ok { y with p := n, rest := [] }
    | .fault f => .error f

/-- Read bytes. -/
def scan (s : Settings) (x : Exec) (bs : Bytes) : Except Fault Exec := bs.foldlM (scanByte s) x

/-- The piece that is not handed over yet. -/
def Exec.pending (x : Exec) : List Callback :=
  DataKind.all.filterMap fun k => (x.marks k).map (k.callback x.parser)

/-! ## Two runs over the same bytes -/

/-- The marks and callbacks of the automaton at `x`, beside those of a run of the parser. -/
def MarkClass.Relates (m : MarkClass) (x y : Exec) : Prop :=
  match m with
  | .clear => x.marks = (fun _ => none) ∧ y.marks = (fun _ => none) ∧ whole x.made = whole y.made
  | .set k => ∃ t u, x.marks = onlyMark k t ∧ y.marks = onlyMark k u ∧
      ∀ q, whole (x.made ++ [k.callback q t]) = whole (y.made ++ [k.callback q u])
  | .behind view => ∃ t, x.marks = onlyMark .body t ∧ y.marks = (fun _ => none) ∧
      whole (x.made ++ [.body view t]) = whole y.made

/-- After an error the automaton has a piece that was not handed over, and the parser may have lost
one. -/
def Lost (x : Exec) (made : List Callback) : Prop :=
  ∃ lost : List Callback, lost.length ≤ 1 ∧ (∀ c ∈ lost, (pieceKind c).isSome) ∧
    whole (x.made ++ x.pending) = whole (made ++ lost)

/-- The outcomes of a case, at `x` and at `y`. -/
def Agree (x y : Exec) : Outcome → Outcome → Prop
  | .next x', .next y' =>
    x'.parser = y'.parser ∧ x'.parser.Ok ∧ x'.rest = x.rest ∧ x'.p = x.p ∧ y'.rest = y.rest ∧
      y'.p = y.p ∧ ∃ m : MarkClass, m.Ends x'.parser.state ∧ m.Relates x' y'
  | .returned x' n, .returned y' n' =>
    x'.parser = y'.parser ∧ n + y.p = n' + x.p ∧ x.p ≤ n ∧
      (x'.parser.errno = .ok → n = x.p + 1 ∧ x'.parser.Ok ∧
        MarkClass.Ends .clear x'.parser.state ∧ MarkClass.clear.Relates x' y') ∧
      (x'.parser.errno ≠ .ok → Lost x' y'.made)
  | _, _ => False

/-! ## A case -/

section Cases

variable {s : Settings} {m : MarkClass} {k : DataKind} {x y : Exec} {q : Parser} {ch : UInt8}

theorem pending_clear (h : x.marks = fun _ => none) : x.pending = [] := by
  simp [Exec.pending, h]

theorem pending_onlyMark {t : Bytes} (h : x.marks = onlyMark k t) :
    x.pending = [k.callback x.parser t] := by
  cases k <;> simp [Exec.pending, DataKind.all, h, onlyMark]

theorem isSome_pieceKind_callback (k : DataKind) (q : Parser) (t : Bytes) :
    (pieceKind (k.callback q t)).isSome := by
  cases k <;> rfl

/-- Where two runs stop with an error, one piece at most is missing in the parser's. -/
theorem MarkClass.Relates.lost (h : m.Relates x y) : Lost x y.made := by
  cases m with
  | clear =>
    obtain ⟨hx, -, hmade⟩ := h
    exact ⟨[], by simp, by simp, by rw [pending_clear hx, List.append_nil, List.append_nil, hmade]⟩
  | set k =>
    obtain ⟨t, u, hx, -, hmade⟩ := h
    refine ⟨[k.callback x.parser u], by simp, ?_, by rw [pending_onlyMark hx, hmade]⟩
    simp [isSome_pieceKind_callback]
  | behind view =>
    obtain ⟨t, hx, -, hmade⟩ := h
    -- an empty piece is lost: it brings the parser as it is now
    refine ⟨[.body x.parser.view []], by simp, by simp [pieceKind], ?_⟩
    have hmore := whole_append hmade [.body x.parser.view []]
    rw [List.append_assoc, List.singleton_append, whole_body_pieces, List.append_nil] at hmore
    rw [pending_onlyMark hx, ← hmore]
    rfl

theorem MarkClass.Relates.mark (h : m.Relates x y) (hk : m.Marks k) :
    (MarkClass.set k).Relates (x.mark k) (y.mark k) := by
  cases m with
  | clear =>
    obtain ⟨hx, hy, hmade⟩ := h
    exact ⟨[], [], by simp [Exec.mark, hx, onlyMark], by simp [Exec.mark, hy, onlyMark],
      fun q => whole_append hmade _⟩
  | set l =>
    obtain ⟨t, u, hx, hy, hmade⟩ := h
    obtain rfl : l = k := hk
    exact ⟨t, u, by simp [Exec.mark, hx, onlyMark], by simp [Exec.mark, hy, onlyMark], hmade⟩
  | behind view =>
    obtain ⟨t, hx, hy, hmade⟩ := h
    obtain rfl : k = .body := hk
    refine ⟨t, [], by simp [Exec.mark, hx, onlyMark], by simp [Exec.mark, hy, onlyMark], fun q => ?_⟩
    have hmore := whole_append hmade [DataKind.body.callback q []]
    rw [List.append_assoc, List.singleton_append] at hmore
    rw [show (y.mark .body).made = y.made from rfl, ← hmore]
    exact (whole_body_pieces x.made view q.view t [] ▸ by rw [List.append_nil]; rfl)

theorem MarkClass.Relates.advance (h : m.Relates x y) (hm : ∀ view, m ≠ .behind view)
    {a : Nat} (hrest : x.rest.take a = y.rest.take a) :
    m.Relates (x.advance a) (y.advance a) := by
  cases m with
  | clear =>
    obtain ⟨hx, hy, hmade⟩ := h
    exact ⟨by simp [Exec.advance, hx], by simp [Exec.advance, hy], hmade⟩
  | set k =>
    obtain ⟨t, u, hx, hy, hmade⟩ := h
    exact ⟨t ++ x.rest.take a, u ++ x.rest.take a, marks_advance hx a, hrest ▸ marks_advance hy a,
      fun q => whole_more hmade _ q⟩
  | behind view => exact absurd rfl (hm view)

/-- Notifying both of the same. -/
theorem notify_agree {c : Callback} {e : Errno} {er er' : Nat} {rest rest' : Exec → Outcome}
    (hs : s.SeesWhole) (hq : q.Sound) (he : e ≠ .ok) (her : er + y.p = er' + x.p)
    (hle : x.p ≤ er) (h : MarkClass.clear.Relates x y)
    (hrest : MarkClass.clear.Relates (x.call q c) (y.call q c) →
      Agree x y (rest (x.call q c)) (rest' (y.call q c))) :
    Agree x y (notify s c e er q rest x) (notify s c e er' q rest' y) := by
  obtain ⟨hx, hy, hmade⟩ := h
  have hcall : MarkClass.clear.Relates (x.call q c) (y.call q c) :=
    ⟨hx, hy, whole_append hmade [c]⟩
  unfold notify
  rw [if_neg (not_not.mpr hq.1), if_neg (not_not.mpr hq.1), hs x.made y.made c hmade]
  split_ifs
  · refine ⟨rfl, her, hle, fun hok => absurd hok he, fun _ => ?_⟩
    exact MarkClass.Relates.lost (m := .clear) (y := (y.call q c).setErrno e) hcall
  · exact hrest hcall

/-- Without a mark nothing is handed over. -/
theorem handOver_clear {more : Bytes} {er : Nat} {rest : Exec → Outcome} (hq : q.Sound)
    (hx : x.marks = fun _ => none) : handOver s k more er q rest x = rest x := by
  unfold handOver
  rw [if_neg (not_not.mpr hq.1), hx]

/-- The text behind the mark is handed over, and the mark goes. -/
theorem handOver_onlyMark {more t : Bytes} {er : Nat} {rest : Exec → Outcome}
    (hdata : s.AcceptsData) (hq : q.Sound) (hx : x.marks = onlyMark k t) :
    handOver s k more er q rest x = rest ((x.call q (k.callback q (t ++ more))).unmark k) := by
  unfold handOver notify
  rw [if_neg (not_not.mpr hq.1), hx, onlyMark_self]
  dsimp only
  rw [if_neg (not_not.mpr hq.1), if_neg (not_not.mpr (hdata x.made k q _))]

/-- Handing over the text behind the marks of both. -/
theorem handOver_agree {more : Bytes} {er er' : Nat} {rest : Exec → Outcome}
    (hdata : s.AcceptsData) (hq : q.Sound) (h : m.Relates x y) (hk : m.HandsOver k q)
    (hmore : ∀ view, m = .behind view → more = [])
    (hrest : ∀ x' y', MarkClass.clear.Relates x' y' → x'.rest = x.rest → x'.p = x.p →
      y'.rest = y.rest → y'.p = y.p → Agree x y (rest x') (rest y')) :
    Agree x y (handOver s k more er q rest x) (handOver s k more er' q rest y) := by
  cases m with
  | clear =>
    rw [handOver_clear hq h.1, handOver_clear hq h.2.1]
    exact hrest x y h rfl rfl rfl rfl
  | set l =>
    obtain ⟨t, u, hx, hy, hmade⟩ := h
    obtain rfl : l = k := hk
    rw [handOver_onlyMark hdata hq hx, handOver_onlyMark hdata hq hy]
    -- both hand over what they have marked, and the pieces put together are the same
    refine hrest _ _ ⟨?_, ?_, whole_more hmade more q⟩ rfl rfl rfl rfl
    · exact holds_unmark (x := x.call q (l.callback q (t ++ more))) hx
    · exact holds_unmark (x := y.call q (l.callback q (u ++ more))) hy
  | behind view =>
    obtain ⟨t, hx, hy, hmade⟩ := h
    obtain ⟨rfl, rfl⟩ := hk
    -- the second has handed its piece over already
    obtain rfl := hmore _ rfl
    rw [handOver_onlyMark hdata hq hx, handOver_clear hq hy, List.append_nil]
    exact hrest _ _ ⟨holds_unmark (x := x.call q (.body q.view t)) hx, hy, hmade⟩ rfl rfl rfl rfl

theorem Agree.congr {o o' : Outcome} {x' y' : Exec} (h : Agree x' y' o o') (hx : x'.rest = x.rest)
    (hxp : x'.p = x.p) (hy : y'.rest = y.rest) (hyp : y'.p = y.p) : Agree x y o o' := by
  unfold Agree at h ⊢
  rw [hx, hxp, hy, hyp] at h
  exact h

/-- **A case** that keeps to the rules does the same in both runs. -/
theorem run_agree {plan : Plan} (hdata : s.AcceptsData) (hs : s.SeesWhole) (hd : plan.Disciplined m)
    (h : m.Relates x y) (hrest : x.rest.take 1 = y.rest.take 1) :
    Agree x y (plan.run s x) (plan.run s y) := by
  -- by induction on the plan
  induction plan generalizing m x y with
  | next q => exact ⟨rfl, hd.2, rfl, rfl, rfl, rfl, m, hd.1, h⟩
  | error e q =>
    refine ⟨rfl, Nat.add_comm _ _, le_refl _, fun hok => absurd hok hd, fun _ => ?_⟩
    exact MarkClass.Relates.lost (m := m) (y := y) h
  | mark k rest ih => exact (ih hd.2 (h.mark hd.1) hrest).congr rfl rfl rfl rfl
  | skip n rest ih =>
    obtain ⟨rfl, hd⟩ := hd
    rw [Plan.run, Plan.run, advance_zero, advance_zero]
    exact ih hd h hrest
  | data k q rest ih | dataNoadvance k q rest ih =>
    refine handOver_agree hdata hd.2.1 h hd.1 (fun _ _ => rfl) fun x' y' hclear hx hxp hy hyp => ?_
    exact (ih hd.2.2 hclear (by rw [hx, hy, hrest])).congr hx hxp hy hyp
  | dataThrough k q rest ih =>
    obtain ⟨rfl, hq, hd⟩ := hd
    rw [Plan.run, Plan.run, hrest]
    refine handOver_agree hdata hq h rfl (fun view hview => by cases hview)
      fun x' y' hclear hx hxp hy hyp => ?_
    exact (ih hd hclear (by rw [hx, hy, hrest])).congr hx hxp hy hyp
  | messageBegin q rest ih | messageComplete q rest ih =>
    obtain ⟨rfl, hq, hd⟩ := hd
    refine notify_agree hs hq (by simp) (by omega) (Nat.le_succ _) h fun hclear => ?_
    exact (ih hd hclear hrest).congr rfl rfl rfl rfl
  | headersComplete q rest ih =>
    obtain ⟨rfl, hq, hd⟩ := hd
    have hcall : MarkClass.clear.Relates (x.call q (.headersComplete q.view))
        (y.call q (.headersComplete q.view)) :=
      ⟨h.1, h.2.1, whole_append h.2.2 [.headersComplete q.view]⟩
    unfold Plan.run askHeadersComplete
    dsimp only
    -- the answer depends on the whole texts, which are the same for both
    rw [hs x.made y.made _ h.2.2]
    split_ifs
    · exact (ih false (hd false) hcall hrest).congr rfl rfl rfl rfl
    · exact (ih true (hd true) hcall hrest).congr rfl rfl rfl rfl
    -- an answer that is neither 0 nor 1 is an error of both
    · refine ⟨rfl, Nat.add_comm _ _, le_refl _, fun hok => by simp [Exec.setErrno] at hok, fun _ => ?_⟩
      exact MarkClass.Relates.lost (m := .clear)
        (y := (y.call q (.headersComplete q.view)).setErrno .cbHeadersComplete) hcall
  | exit q =>
    obtain ⟨rfl, hends, hok, -⟩ := hd
    exact ⟨rfl, by omega, Nat.le_succ _, fun _ => ⟨rfl, hok, hends, h⟩, fun hbad => absurd hok.sound.1 hbad⟩
  | fault f => exact hd.elim

/-- **A byte** does the same in both runs. -/
theorem readByte_agree (hdata : s.AcceptsData) (hs : s.SeesWhole) (hok : x.parser.Ok)
    (hstarts : m.Starts x.parser) (heq : x.parser = y.parser) (h : m.Relates x y)
    (hrest : x.rest.take 1 = y.rest.take 1) :
    Agree x y (readByte s ch x) (readByte s ch y) := by
  unfold readByte
  dsimp only
  rw [← heq]
  split_ifs
  · refine ⟨rfl, Nat.add_comm _ _, le_refl _, fun hok => by simp [Exec.setErrno] at hok, fun _ => ?_⟩
    exact MarkClass.Relates.lost (m := m)
      (x := { x with parser := { x.parser.count with errno := .headerOverflow } }) (y := y) h
  · exact (run_agree (x := { x with parser := x.parser.count })
      (y := { y with parser := x.parser.count }) hdata hs (switch_disciplined hok hstarts ch) h
      hrest).congr rfl rfl rfl rfl

end Cases

/-! ## A call -/

section Calls

variable {s : Settings} {x y : Exec} {q : Parser} {ch : UInt8} {bs data : Bytes}

/-- The automaton between two bytes, beside the parser in the middle of its data. -/
structure Beside (x y : Exec) : Prop where
  parser : x.parser = y.parser
  ok : x.parser.Ok
  marks : ∃ m : MarkClass, m.Starts x.parser ∧ m.Relates x y

/-- The automaton between two bytes, beside a connection between two calls. -/
structure Follows (x : Exec) (c : Session) : Prop where
  parser : x.parser = c.parser
  consumed : x.p = c.consumed
  beside : x.parser.errno = .ok → Beside x ⟨c.parser, startMarks c.parser.state, 0, [], c.made⟩
  /-- the piece of a text that goes on in the next call has been handed over -/
  handed : ∀ k, x.parser.errno = .ok → c.parser.state.resumes = some k →
    ∃ l q t, c.made = l ++ [k.callback q t]
  lost : x.parser.errno ≠ .ok → Lost x c.made

/-- After an error the automaton does not move. -/
theorem scan_of_error (he : x.parser.errno ≠ .ok) (bs : Bytes) : scan s x bs = .ok x := by
  induction bs with
  | nil => rfl
  | cons ch bs ih =>
    rw [scan, List.foldlM_cons, scanByte, if_pos he]
    exact ih

theorem scan_append (x : Exec) (bs bs' : Bytes) :
    scan s x (bs ++ bs') = scan s x bs >>= fun y => scan s y bs' := by
  rw [scan, List.foldlM_append]
  rfl

/-- The end of a turn, as the start of the next. -/
theorem beside_advance {m : MarkClass} (heq : x.parser = y.parser) (hok : x.parser.Ok)
    (hends : m.Ends x.parser.state) (h : m.Relates x y) (hrest : x.rest.take 1 = y.rest.take 1) :
    Beside (x.advance 1) (y.advance 1) := by
  refine ⟨heq, hok, m, starts_of_ends hends, h.advance ?_ hrest⟩
  rintro view rfl
  exact hends

/-- What is left when the parser is through with its data, or stops in it. -/
def Reached (s : Settings) (x y : Exec) (bs : Bytes) : Outcome → Prop
  | .next y' => ∃ x', scan s x bs = .ok x' ∧ Beside x' y' ∧ x'.p + y.p = x.p + y'.p
  | .returned y' n => y.p ≤ n ∧ ∃ x', x'.parser = y'.parser ∧ x'.p + y.p = x.p + n ∧
      (x'.parser.errno = .ok → scan s x (bs.take (n - y.p)) = .ok x' ∧ x'.parser.Ok ∧
        MarkClass.Ends .clear x'.parser.state ∧ MarkClass.clear.Relates x' y') ∧
      (x'.parser.errno ≠ .ok → scan s x bs = .ok x' ∧ Lost x' y'.made)
  | .fault _ => False

theorem scan_cons {x' : Exec} (h : scanByte s x ch = .ok x') (bs : Bytes) :
    scan s x (ch :: bs) = scan s x' bs := by
  rw [scan, List.foldlM_cons, h]
  rfl

/-- What is reached a byte later is reached. -/
theorem Reached.back {x' y' : Exec} {o : Outcome} (h : Reached s x' y' bs o)
    (hstep : scanByte s x ch = .ok x') (hx : x'.p = x.p + 1) (hy : y'.p = y.p + 1) :
    Reached s x y (ch :: bs) o := by
  cases o with
  | next z =>
    obtain ⟨x'', hscan, hbeside, hp⟩ := h
    exact ⟨x'', by rw [scan_cons hstep, hscan], hbeside, by omega⟩
  | returned z n =>
    obtain ⟨hle, x'', heq, hp, hok, hbad⟩ := h
    have hcount : n - y.p = n - y'.p + 1 := by omega
    refine ⟨by omega, x'', heq, by omega, fun he => ?_, fun he => ?_⟩
    · obtain ⟨hscan, hrest⟩ := hok he
      exact ⟨by rw [hcount, List.take_succ_cons, scan_cons hstep, hscan], hrest⟩
    · exact ⟨by rw [scan_cons hstep, (hbad he).1], (hbad he).2⟩
  | fault f => exact h.elim

/-- All bytes of the data. -/
theorem readBytes_reached (hdata : s.AcceptsData) (hs : s.SeesWhole) (h : Beside x y)
    (hy : y.rest = bs) : Reached s x y bs (readBytes s bs y) := by
  -- by induction on the bytes: the byte-wise reader follows one step behind
  induction bs generalizing x y with
  | nil => exact ⟨x, rfl, h, rfl⟩
  | cons ch bs ih =>
    obtain ⟨heq, hok, m, hstarts, hm⟩ := h
    have hagree : Agree { x with rest := [ch] } y (readByte s ch { x with rest := [ch] })
        (readByte s ch y) :=
      readByte_agree hdata hs hok hstarts heq hm (by simp [hy])
    have herr : ¬ x.parser.errno ≠ .ok := not_not.mpr hok.sound.1
    rw [readBytes]
    cases hx : readByte s ch { x with rest := [ch] } with
    | next x' =>
      cases hread : readByte s ch y with
      | next y' =>
        rw [hx, hread] at hagree
        obtain ⟨heq', hok', hxrest, hxp, hyrest, hyp, m', hends, hm'⟩ := hagree
        -- both go on to the next byte
        have hstep : scanByte s x ch = .ok (x'.advance 1) := by rw [scanByte, if_neg herr, hx]
        have hrest : (y'.advance 1).rest = bs := by
          rw [show (y'.advance 1).rest = y'.rest.drop 1 from rfl, hyrest, hy]
          rfl
        have hnext := ih (beside_advance heq' hok' hends hm' (by rw [hxrest, hyrest, hy]; rfl)) hrest
        exact hnext.back hstep (by rw [← hxp]; rfl) (by rw [← hyp]; rfl)
      | returned y' n => rw [hx, hread] at hagree; exact hagree.elim
      | fault f => rw [hx, hread] at hagree; exact hagree.elim
    | returned x' n =>
      cases hread : readByte s ch y with
      | returned y' n' =>
        rw [hx, hread] at hagree
        obtain ⟨heq', hp, hle, hok', hbad⟩ := hagree
        dsimp only at hp hle hok'
        -- both have returned, with the same error
        have hstep : scanByte s x ch = .ok { x' with p := n, rest := [] } := by rw [scanByte, if_neg herr, hx]
        refine ⟨by omega, { x' with p := n, rest := [] }, heq', by dsimp only; omega, fun he => ?_, fun he => ?_⟩
        · obtain ⟨hn, hrest⟩ := hok' he
          have hone : n' - y.p = 1 := by omega
          exact ⟨by rw [hone, List.take_succ_cons, scan_cons hstep]; rfl, hrest⟩
        · exact ⟨by rw [scan_cons hstep, scan_of_error he], hbad he⟩
      | next y' => rw [hx, hread] at hagree; exact hagree.elim
      | fault f => rw [hx, hread] at hagree; exact hagree.elim
    | fault f =>
      rw [hx] at hagree
      exact hagree.elim

/-- The marks of a new call are those of its state. -/
theorem startMarks_none (hr : q.state.resumes = none) : startMarks q.state = fun _ => none := by
  funext k
  simp [startMarks, hr]

theorem startMarks_some {k : DataKind} (hr : q.state.resumes = some k) :
    startMarks q.state = onlyMark k [] := by
  funext l
  by_cases hl : l = k
  · subst hl
    simp [startMarks, hr, onlyMark_self]
  · simp [startMarks, hr, onlyMark_ne hl, Ne.symm hl]

theorem marks_le_one_of_relates {m : MarkClass} (h : m.Relates x y) :
    (DataKind.all.filter fun k => (y.marks k).isSome).length ≤ 1 := by
  cases m with
  | clear => simp [DataKind.all, h.2.1]
  | set k =>
    obtain ⟨t, u, -, hy, -⟩ := h
    rw [hy]
    cases k <;> simp [DataKind.all, onlyMark]
  | behind view =>
    obtain ⟨t, -, hy, -⟩ := h
    simp [DataKind.all, hy]

/-- A call that comes to the end of its data hands over what it has. -/
theorem finish_beside (hdata : s.AcceptsData) (h : Beside x y) (len : Nat) :
    ∃ made, finish s len y = .ok ⟨y.parser, made, len⟩ ∧
      Beside x ⟨y.parser, startMarks y.parser.state, 0, [], made⟩ ∧
      ∀ k, y.parser.state.resumes = some k → ∃ l q t, made = l ++ [k.callback q t] := by
  obtain ⟨heq, hok, m, hstarts, hm⟩ := h
  have herr : y.parser.errno = .ok := heq ▸ hok.sound.1
  -- what is marked at the end of the data is handed over, and the text goes on in the next call
  have hclear : y.marks = (fun _ => none) → finish s len y = .ok ⟨y.parser, y.made, len⟩ := by
    intro hy
    rw [finish, if_pos (marks_le_one_of_relates hm), run_leftover_clear hy herr]
  have hset : ∀ k t, y.marks = onlyMark k t →
      finish s len y = .ok ⟨y.parser, y.made ++ [k.callback y.parser t], len⟩ := by
    intro k t hy
    rw [finish, if_pos (marks_le_one_of_relates hm), run_leftover_set hy herr, notify,
      if_neg (not_not.mpr herr), if_neg (not_not.mpr (hdata _ _ _ _))]
    rfl
  -- the states that resume a text are those in which one is marked
  unfold MarkClass.Starts at hstarts
  cases hr : x.parser.state.resumes with
  | some k =>
    simp only [hr] at hstarts
    subst hstarts
    obtain ⟨t, u, hx, hy, hmade⟩ := hm
    have hsome : y.parser.state.resumes = some k := heq ▸ hr
    refine ⟨_, hset k u hy, ⟨heq, hok, .set k, by simp [MarkClass.Starts, hr], t, [], hx,
      startMarks_some hsome, fun q => ?_⟩, fun l hl => ?_⟩
    · rw [hmade q, List.append_assoc, List.singleton_append, whole_two_pieces, List.append_nil]
    · obtain rfl : k = l := Option.some.inj (hsome.symm.trans hl)
      exact ⟨y.made, y.parser, u, rfl⟩
  | none =>
    simp only [hr] at hstarts
    have hnone : y.parser.state.resumes = none := heq ▸ hr
    have hmarks := startMarks_none hnone
    have hvacuous : ∀ (made : List Callback) (k : DataKind), y.parser.state.resumes = some k →
        ∃ l q t, made = l ++ [k.callback q t] := by
      intro made k hk
      rw [hnone] at hk
      cases hk
    obtain rfl | ⟨hbody, rfl | rfl⟩ := hstarts
    · exact ⟨_, hclear hm.2.1, ⟨heq, hok, .clear, by simp [MarkClass.Starts, hr], hm.1, hmarks,
        hm.2.2⟩, hvacuous _⟩
    · obtain ⟨t, u, hx, hy, hmade⟩ := hm
      exact ⟨_, hset .body u hy, ⟨heq, hok, .behind x.parser.view,
        by simp [MarkClass.Starts, hr, hbody], t, hx, hmarks, heq ▸ hmade x.parser⟩, hvacuous _⟩
    · obtain ⟨t, hx, hy, hmade⟩ := hm
      exact ⟨_, hclear hy, ⟨heq, hok, .behind x.parser.view,
        by simp [MarkClass.Starts, hr, hbody], t, hx, hmarks, hmade⟩, hvacuous _⟩

/-- **A call** does what the automaton does with the bytes that it parses. -/
theorem execute_follows {c : Session} (hdata : s.AcceptsData) (hs : s.SeesWhole) (h : Follows x c)
    (he : c.parser.errno = .ok) (hne : data ≠ []) :
    ∃ r x', execute s c.parser c.made data = .ok r ∧ r.Fine data.length ∧
      Follows x' ⟨r.parser, r.made, c.consumed + r.parsed⟩ ∧
      (r.parser.errno = .ok → scan s x (data.take r.parsed) = .ok x') ∧
      (r.parser.errno ≠ .ok → scan s x data = .ok x') := by
  -- the session and the byte-wise reader are beside each other
  have hbeside := h.beside (h.parser ▸ he)
  have hok : c.parser.Ok := h.parser ▸ hbeside.ok
  obtain ⟨r, hr, hfine⟩ := execute_fine (s := s) c.made (fun _ => hok) he hne
  have hloop := loop_eq_readBytes (s := s) (ready_start hok c.made data) rfl (le_refl data.length)
  have hreached := readBytes_reached (x := x)
    (y := ⟨c.parser, startMarks c.parser.state, 0, data, c.made⟩) hdata hs
    ⟨hbeside.parser, hbeside.ok, hbeside.marks⟩ rfl
  have hdone := readBytes_done (s := s) (ready_start hok c.made data) rfl
  have hexec := hr
  unfold execute at hexec
  rw [if_neg (not_not.mpr he), if_neg hne, hloop] at hexec
  refine ⟨r, ?_⟩
  dsimp only at hexec hreached hdone
  cases hread : readBytes s data ⟨c.parser, startMarks c.parser.state, 0, data, c.made⟩ with
  | next y =>
    rw [hread] at hexec hreached hdone
    -- all data was read
    obtain ⟨x', hscan, hb, hp⟩ := hreached
    obtain ⟨made, hfinish, hb', hhanded⟩ := finish_beside hdata hb data.length
    have hsame : finish s data.length y = .ok r := hexec
    obtain rfl : r = ⟨y.parser, made, data.length⟩ := Except.ok.inj (hsame.symm.trans hfinish)
    have hyp : y.p = data.length := hdone.2.1.trans (Nat.zero_add _)
    have hxok := hb.ok.sound.1
    refine ⟨x', hr, hfine, ⟨hb.parser, ?_, fun _ => hb', fun k _ => hhanded k,
      fun hbad => absurd hxok hbad⟩, ?_, ?_⟩
    · dsimp only at hp ⊢
      have hc := h.consumed
      omega
    · intro _
      rw [List.take_length, hscan]
    · exact fun hbad => absurd (hb.parser ▸ hxok) hbad
  | returned y n =>
    rw [hread] at hexec hreached
    -- the call returned early, behind a message or with an error
    obtain ⟨-, x', heq, hp, hok', hbad⟩ := hreached
    obtain rfl : r = ⟨y.parser, y.made, n⟩ := (Except.ok.inj hexec).symm
    refine ⟨x', hr, hfine, ⟨heq, ?_, fun he' => ?_, fun k he' hk => ?_, fun he' => (hbad he').2⟩,
      fun he' => ?_, fun he' => ?_⟩
    · dsimp only at hp ⊢
      have hc := h.consumed
      omega
    · obtain ⟨-, hxok, hends, hx, hy, hmade⟩ := hok' he'
      refine ⟨heq, hxok, .clear, starts_of_ends hends, hx, ?_, hmade⟩
      exact startMarks_none (heq ▸ hends)
    · obtain ⟨-, -, hends, -⟩ := hok' he'
      have hnone : y.parser.state.resumes = none := heq ▸ hends
      rw [hnone] at hk
      cases hk
    · exact (hok' (heq ▸ he')).1
    · exact (hbad (heq ▸ he')).1
  | fault f =>
    rw [hread] at hreached
    exact hreached.elim

end Calls

/-! ## A connection -/

section Connections

variable {s : Settings} {x : Exec} {c c' : Session} {data : Bytes} {t : ParserType}

/-- The automaton at the beginning of a connection. -/
def Exec.start (t : ParserType) : Exec := ⟨.init t, fun _ => none, 0, [], []⟩

theorem follows_start (t : ParserType) : Follows (.start t) (.start t) := by
  have hnone : (Parser.init t).state.resumes = none := by cases t <;> rfl
  refine ⟨rfl, rfl, fun _ => ⟨rfl, init_ok t, .clear, ?_, rfl, startMarks_none hnone, rfl⟩,
    fun k _ hk => ?_, fun hbad => absurd rfl hbad⟩
  · simp [MarkClass.Starts, Exec.start, hnone]
  · have hsome : (Parser.init t).state.resumes = some k := hk
    rw [hnone] at hsome
    cases hsome

/-- A call after an error parses nothing. -/
theorem offer_of_error (he : c.parser.errno ≠ .ok) (tries : Nat) (data : Bytes) :
    c.offer s tries data = .ok c := by
  cases tries with
  | zero => rfl
  | succ tries =>
    rw [Session.offer]
    split
    · rfl
    · rw [execute, if_pos he]
      rfl

/-- **A segment**, offered until nothing is left or nothing is taken. -/
theorem offer_follows (hdata : s.AcceptsData) (hs : s.SeesWhole) {tries : Nat} (h : Follows x c)
    (htries : data.length < tries) :
    ∃ c' x', c.offer s tries data = .ok c' ∧ scan s x data = .ok x' ∧ Follows x' c' := by
  -- by induction on the tries: each parses at least one byte
  induction tries generalizing x c data with
  | zero => omega
  | succ tries ih =>
    by_cases he : c.parser.errno = .ok
    · by_cases hne : data = []
      · subst hne
        exact ⟨c, x, by rw [Session.offer, if_pos rfl], rfl, h⟩
      · obtain ⟨r, x', hr, hfine, hfollows, hscan, hscan'⟩ := execute_follows hdata hs h he hne
        have hoffer : c.offer s (tries + 1) data =
            if r.parsed = 0 then .ok ⟨r.parser, r.made, c.consumed + r.parsed⟩
            else Session.offer s tries ⟨r.parser, r.made, c.consumed + r.parsed⟩
              (data.drop r.parsed) := by
          rw [Session.offer, if_neg hne, hr]
          rfl
        by_cases he' : r.parser.errno = .ok
        -- what was not parsed is offered again
        · have hpos := hfine.parsed_pos he'
          have hlength : (data.drop r.parsed).length = data.length - r.parsed := List.length_drop
          have hsome := List.length_pos_iff.mpr hne
          obtain ⟨c', x'', hc', hx'', hfollows'⟩ := ih hfollows (show (data.drop r.parsed).length < tries by omega)
          refine ⟨c', x'', by rw [hoffer, if_neg (by omega), hc'], ?_, hfollows'⟩
          rw [← List.take_append_drop r.parsed data, scan_append, hscan he']
          exact hx''
        · refine ⟨_, x', ?_, hscan' he', hfollows⟩
          rw [hoffer]
          split_ifs
          · rfl
          -- after an error nothing more is parsed
          · exact offer_of_error he' _ _
    · refine ⟨c, x, offer_of_error he _ _, scan_of_error ?_ _, h⟩
      rw [h.parser]
      exact he

/-- **A connection**, in any segments. -/
theorem feed_follows (hdata : s.AcceptsData) (hs : s.SeesWhole) (h : Follows x c)
    (segments : List Bytes) :
    ∃ c' x', c.feed s segments = .ok c' ∧ scan s x segments.flatten = .ok x' ∧ Follows x' c' := by
  induction segments generalizing x c with
  | nil => exact ⟨c, x, rfl, rfl, h⟩
  | cons data segments ih =>
    obtain ⟨c', x', hc', hx', h'⟩ := offer_follows hdata hs h (Nat.lt_succ_self data.length)
    obtain ⟨c'', x'', hc'', hx'', h''⟩ := ih h'
    refine ⟨c'', x'', ?_, ?_, h''⟩
    · rw [Session.feed, List.foldlM_cons, hc']
      exact hc''
    · rw [List.flatten_cons, scan_append, hx']
      exact hx''

theorem onlyMark_inj {k l : DataKind} {a b : Bytes} (h : onlyMark k a = onlyMark l b) :
    k = l ∧ a = b := by
  have hk := congrFun h k
  rw [onlyMark_self] at hk
  by_cases hkl : k = l
  · subst hkl
    rw [onlyMark_self] at hk
    exact ⟨rfl, Option.some.inj hk⟩
  · rw [onlyMark_ne hkl] at hk
    cases hk

/-- The mark of a call's start is not that of the body. -/
theorem resumes_ne_body (q : Parser) : q.state.resumes ≠ some .body := by
  cases q.state <;> simp [State.resumes]

/-- An empty piece behind a piece of the same text makes no difference. -/
theorem whole_empty_piece {k : DataKind} (hk : k ≠ .body) {q q' : Parser} {l : List Callback}
    {a : Bytes} {made : List Callback} (h : made = l ++ [k.callback q a]) :
    whole (made ++ [k.callback q' []]) = whole made := by
  subst h
  have hsame : k.callback q' (a ++ []) = k.callback q a := by
    rw [List.append_nil]
    cases k <;> first | rfl | exact absurd rfl hk
  rw [List.append_assoc, List.singleton_append, whole_two_pieces, hsame]

/-- Without an error, what has been handed over is what the automaton has and its pending piece. -/
theorem Follows.whole_eq (h : Follows x c) (he : x.parser.errno = .ok) :
    whole (x.made ++ x.pending) = whole c.made := by
  obtain ⟨heq, hok, m, hstarts, hm⟩ := h.beside he
  unfold MarkClass.Starts at hstarts
  cases m with
  | clear =>
    obtain ⟨hx, -, hmade⟩ := hm
    rw [pending_clear hx, List.append_nil, hmade]
  | set k =>
    obtain ⟨a, b, hx, hy, hmade⟩ := hm
    have hstart : startMarks c.parser.state = onlyMark k b := hy
    have hr : c.parser.state.resumes = some k := by
      have hk := congrFun hstart k
      rw [onlyMark_self, startMarks] at hk
      split at hk
      · assumption
      · cases hk
    -- the session starts a call with an empty mark, for it has handed over what it had
    obtain ⟨rfl⟩ : b = [] := ((onlyMark_inj ((startMarks_some hr).symm.trans hstart)).2).symm
    obtain ⟨l, q, a', hmade'⟩ := h.handed k he hr
    have hk : k ≠ .body := fun hk => resumes_ne_body c.parser (hk ▸ hr)
    rw [pending_onlyMark hx, hmade x.parser]
    exact whole_empty_piece hk hmade'
  | behind view =>
    obtain ⟨a, hx, -, hmade⟩ := hm
    have hview : view = x.parser.view := by
      cases hr : x.parser.state.resumes with
      | none =>
        simp only [hr, reduceCtorEq, false_or, MarkClass.behind.injEq] at hstarts
        exact hstarts.2
      | some k => simp [hr] at hstarts
    rw [pending_onlyMark hx, ← hmade, hview]
    rfl

/-- The callbacks of two connections, up to a piece of a text in each that was lost. -/
def SameCallbacks (c c' : Session) : Prop :=
  ∃ lost lost' : List Callback, lost.length ≤ 1 ∧ lost'.length ≤ 1 ∧
    (∀ e ∈ lost ++ lost', (pieceKind e).isSome) ∧ whole (c.made ++ lost) = whole (c'.made ++ lost')

/-- **The parser does not depend on how the data is cut.** Fed the same bytes in other segments, it
is left in the same state, with the same number of bytes consumed, the same error if there is one,
and has made the same callbacks but for the places where the texts are cut. Only an error may cost a
piece of the text that was read when it came. -/
theorem feed_segments (hdata : s.AcceptsData) (hs : s.SeesWhole) (t : ParserType)
    {segments segments' : List Bytes} (h : segments.flatten = segments'.flatten) :
    ∃ c c', Session.feed s (.start t) segments = .ok c ∧
      Session.feed s (.start t) segments' = .ok c' ∧
      c.parser = c'.parser ∧ c.consumed = c'.consumed ∧ SameCallbacks c c' ∧
      (c.parser.errno = .ok → whole c.made = whole c'.made) := by
  obtain ⟨c, x, hc, hx, hfollows⟩ := feed_follows hdata hs (follows_start t) segments
  obtain ⟨c', x', hc', hx', hfollows'⟩ := feed_follows hdata hs (follows_start t) segments'
  obtain rfl : x' = x := by
    rw [h, hx'] at hx
    exact Except.ok.inj hx
  have hok : x'.parser.errno = .ok → whole c.made = whole c'.made := fun he =>
    (hfollows.whole_eq he).symm.trans (hfollows'.whole_eq he)
  refine ⟨c, c', hc, hc', hfollows.parser.symm.trans hfollows'.parser,
    hfollows.consumed.symm.trans hfollows'.consumed, ?_, fun he => hok (hfollows.parser ▸ he)⟩
  by_cases he : x'.parser.errno = .ok
  · exact ⟨[], [], by simp, by simp, by simp, by simpa using hok he⟩
  · obtain ⟨lost, hlen, hsome, hmade⟩ := hfollows.lost he
    obtain ⟨lost', hlen', hsome', hmade'⟩ := hfollows'.lost he
    refine ⟨lost, lost', hlen, hlen', fun e hmem => ?_, hmade.symm.trans hmade'⟩
    exact (List.mem_append.mp hmem).elim (hsome e) (hsome' e)

/-- A request in one segment, and cut within its method and within its version. -/
theorem feed_segments_get :
    ∃ c c', Session.feed (fun _ _ => 0) (.start .request)
        [ascii "GET / HT", ascii "TP/1.1\r\n\r\n"] = .ok c ∧
      Session.feed (fun _ _ => 0) (.start .request)
        [ascii "G", ascii "ET / HTTP/1", ascii ".1\r\n\r\n"] = .ok c' ∧
      c.parser = c'.parser ∧ c.consumed = c'.consumed ∧ SameCallbacks c c' ∧
      (c.parser.errno = .ok → whole c.made = whole c'.made) :=
  feed_segments (fun _ _ _ _ => rfl) (fun _ _ _ _ => rfl) .request (by decide)

end Connections

end Sails.HttpParser
