import Sails.Net.HttpParser.Segments

/-!
# Reading texts

What the automaton makes of a text when every callback succeeds. A text is read part by part, and
what is said of a part is where the reader stands behind it.

- `Reader`: the record, the pending piece and the callbacks made
- `Plan.apply`: what a case of the switch does to a reader
- `Reads`: a text leads from one reader to another
- `Reads.byte`: a single byte, by its case of the switch
- `feed_reads`: what is read is what a connection makes of the text in any segments
-/

namespace Sails.HttpParser

open CMemory
open Sails.Net (Callback)

/-- Every callback succeeds. -/
def accepting : Settings := fun _ _ => 0

theorem accepting_acceptsData : accepting.AcceptsData := fun _ _ _ _ => rfl

theorem accepting_seesWhole : accepting.SeesWhole := fun _ _ _ _ => rfl

/-- What there is of the automaton between two bytes. -/
structure Reader where
  parser : Parser
  pending : Option (DataKind × Bytes)
  made : List Callback

/-- The marks for a pending piece. -/
def marksOf : Option (DataKind × Bytes) → DataKind → Option Bytes
  | none => fun _ => none
  | some (k, t) => onlyMark k t

/-- The automaton with the reader, `p` bytes behind the start. -/
def Reader.exec (r : Reader) (p : Nat) : Exec := ⟨r.parser, marksOf r.pending, p, [], r.made⟩

/-- The text leads from `r` to `r'`, if `r` is a reader as it has to be between two bytes. -/
def Reads (r : Reader) (bs : Bytes) (r' : Reader) : Prop :=
  ∀ p, (r.exec p).Ready →
    scan accepting (r.exec p) bs = .ok (r'.exec (p + bs.length)) ∧ (r'.exec (p + bs.length)).Ready

theorem Reads.nil (r : Reader) : Reads r [] r := fun _ h => ⟨rfl, h⟩

theorem Reads.append {r r' r'' : Reader} {bs bs' : Bytes} (h : Reads r bs r')
    (h' : Reads r' bs' r'') : Reads r (bs ++ bs') r'' := by
  intro p hr
  obtain ⟨hscan, hr'⟩ := h p hr
  rw [scan_append, hscan, List.length_append, ← Nat.add_assoc]
  exact h' (p + bs.length) hr'

theorem Reads.cons {r r' r'' : Reader} {ch : UInt8} {bs : Bytes} (h : Reads r [ch] r')
    (h' : Reads r' bs r'') : Reads r (ch :: bs) r'' := h.append h'

/-! ## One byte -/

/-- What a case does to a reader at the byte `ch`; `none` where it ends with an error. -/
def Plan.apply (ch : UInt8) : Plan → Option (DataKind × Bytes) → List Callback → Option Reader
  | .next q, pending, made => some ⟨q, pending.map fun t => (t.1, t.2 ++ [ch]), made⟩
  | .error _ _, _, _ => none
  | .mark k rest, none, made => rest.apply ch (some (k, [])) made
  | .mark k rest, some (l, t), made => if l = k then rest.apply ch (some (l, t)) made else none
  | .skip n rest, pending, made => if n = 0 then rest.apply ch pending made else none
  | .data _ _ rest, none, made | .dataNoadvance _ _ rest, none, made => rest.apply ch none made
  | .data k q rest, some (l, t), made | .dataNoadvance k q rest, some (l, t), made =>
    if l = k then rest.apply ch none (made ++ [k.callback q t]) else none
  | .dataThrough _ _ rest, none, made => rest.apply ch none made
  | .dataThrough k q rest, some (l, t), made =>
    if l = k then rest.apply ch none (made ++ [k.callback q (t ++ [ch])]) else none
  | .messageBegin _ rest, pending, made => rest.apply ch pending (made ++ [.messageBegin])
  | .messageComplete q rest, pending, made =>
    rest.apply ch pending (made ++ [.messageComplete q.view])
  | .headersComplete q rest, pending, made =>
    (rest false).apply ch pending (made ++ [.headersComplete q.view])
  | .exit q, none, made => some ⟨q, none, made⟩
  | .exit _, some _, _ => none
  | .fault _, _, _ => none

/-- The class says which piece is pending. -/
def MarkClass.Matches : MarkClass → Option (DataKind × Bytes) → Prop
  | clear, none => True
  | set k, some (l, _) => k = l
  | _, _ => False

theorem holds_exec {m : MarkClass} {r : Reader} {p : Nat} :
    m.Holds (r.exec p) ↔ m.Matches r.pending := by
  obtain ⟨q, pending, made⟩ := r
  constructor
  · intro h
    -- a mark class holds of a reader if it says what is pending
    cases m with
    | clear =>
      cases pending with
      | none => trivial
      | some kt =>
        have hk := congrFun (show marksOf (some kt) = _ from h) kt.1
        rw [marksOf, onlyMark_self] at hk
        cases hk
    | set k =>
      obtain ⟨text, htext⟩ := h
      have htext' : marksOf pending = onlyMark k text := htext
      cases pending with
      | none =>
        have hk := congrFun htext' k
        rw [onlyMark_self] at hk
        cases hk
      | some kt => exact (onlyMark_inj htext').1.symm
    | behind view => exact h.elim
  · intro h
    cases m <;> cases pending
    case clear.none => rfl
    case set.some k kt =>
      obtain ⟨l, t⟩ := kt
      obtain rfl : k = l := h
      exact ⟨t, rfl⟩
    all_goals exact h.elim

/-- The automaton behind a case that ended well. -/
def Outcome.Behind (p : Nat) (r : Reader) : Outcome → Prop
  | .next y => y.advance 1 = r.exec (p + 1)
  | .returned y n => { y with p := n, rest := [] } = r.exec (p + 1)
  | .fault _ => False

theorem marksOf_advance (pending : Option (DataKind × Bytes)) (q : Parser) (p : Nat) (ch : UInt8)
    (made : List Callback) :
    (Exec.advance 1 ⟨q, marksOf pending, p, [ch], made⟩).marks =
      marksOf (pending.map fun t => (t.1, t.2 ++ [ch])) := by
  cases pending with
  | none => rfl
  | some kt => exact marks_advance (x := ⟨q, onlyMark kt.1 kt.2, p, [ch], made⟩) rfl 1

theorem unmark_onlyMark (k : DataKind) (t : Bytes) :
    Function.update (onlyMark k t) k none = marksOf none := by
  rw [update_onlyMark, Function.update_eq_self]
  rfl

/-- What a hand-over does to the automaton. -/
theorem handOver_exec {k : DataKind} {more t : Bytes} {er p : Nat} {q q₀ : Parser} {ch : UInt8}
    {rest : Exec → Outcome} {made : List Callback} (hq : q.Sound) :
    handOver accepting k more er q rest ⟨q₀, marksOf (some (k, t)), p, [ch], made⟩ =
      rest ⟨q, marksOf none, p, [ch], made ++ [k.callback q (t ++ more)]⟩ := by
  rw [handOver_onlyMark accepting_acceptsData hq rfl]
  exact congrArg rest (congrArg (fun marks => Exec.mk q marks p [ch] _) (unmark_onlyMark k t))

theorem notify_accepting {c : Callback} {e : Errno} {er : Nat} {q : Parser} {x : Exec}
    {rest : Exec → Outcome} (hq : q.Sound) : notify accepting c e er q rest x = rest (x.call q c) := by
  unfold notify
  rw [if_neg (not_not.mpr hq.1)]
  rfl

/-- **A case** does to the automaton what it does to the reader. -/
theorem run_apply {plan : Plan} {m : MarkClass} {ch : UInt8} {q₀ : Parser} {p : Nat}
    {pending : Option (DataKind × Bytes)} {made : List Callback} {r : Reader}
    (hd : plan.Disciplined m) (hm : m.Matches pending)
    (h : plan.apply ch pending made = some r) :
    (plan.run accepting ⟨q₀, marksOf pending, p, [ch], made⟩).Behind p r ∧
      (r.exec (p + 1)).Ready := by
  -- by induction on the plan
  induction plan generalizing m q₀ pending made with
  | next q =>
    obtain rfl : _ = r := Option.some.inj h
    refine ⟨?_, hd.2, m, starts_of_ends hd.1, ?_⟩
    · exact congrArg (fun marks => Exec.mk q marks (p + 1) [] made)
        (marksOf_advance pending q p ch made)
    · rw [holds_exec]
      cases m <;> cases pending <;> exact hm
  | error e q | fault f => cases h
  | mark k rest ih =>
    obtain ⟨hk, hd⟩ := hd
    cases pending with
    | none => exact ih hd (show (MarkClass.set k).Matches (some (k, [])) from rfl) h
    | some kt =>
      obtain ⟨l, t⟩ := kt
      simp only [Plan.apply] at h
      split at h
      · rename_i hl
        subst hl
        -- a mark that stands is not moved
        have hmark : (Exec.mark l ⟨q₀, marksOf (some (l, t)), p, [ch], made⟩) =
            ⟨q₀, marksOf (some (l, t)), p, [ch], made⟩ := by
          simp [Exec.mark, marksOf, onlyMark]
        rw [Plan.run, hmark]
        exact ih hd rfl h
      · cases h
  | skip n rest ih =>
    obtain ⟨rfl, hd⟩ := hd
    rw [Plan.run, advance_zero]
    exact ih hd hm h
  | data k q rest ih | dataNoadvance k q rest ih =>
    obtain ⟨hk, hq, hd⟩ := hd
    cases pending with
    | none =>
      rw [Plan.run, handOver_clear hq rfl]
      exact ih hd trivial h
    | some kt =>
      obtain ⟨l, t⟩ := kt
      simp only [Plan.apply] at h
      split at h
      · rename_i hl
        subst hl
        rw [Plan.run, handOver_exec hq, List.append_nil]
        exact ih hd trivial h
      · cases h
  | dataThrough k q rest ih =>
    obtain ⟨rfl, hq, hd⟩ := hd
    cases pending with
    | none => exact hm.elim
    | some kt =>
      obtain ⟨l, t⟩ := kt
      obtain rfl : k = l := hm
      rw [Plan.run, handOver_exec hq]
      simp only [Plan.apply, if_true] at h
      exact ih hd trivial h
  | messageBegin q rest ih | messageComplete q rest ih =>
    obtain ⟨rfl, hq, hd⟩ := hd
    rw [Plan.run, notify_accepting hq]
    exact ih hd hm h
  | headersComplete q rest ih =>
    obtain ⟨rfl, hq, hd⟩ := hd
    rw [Plan.run, askHeadersComplete]
    exact ih false (hd false) hm h
  | exit q =>
    obtain ⟨rfl, hends, hok, -⟩ := hd
    cases pending with
    | none =>
      obtain rfl : _ = r := Option.some.inj h
      exact ⟨rfl, hok, .clear, starts_of_ends hends, rfl⟩
    | some kt => exact hm.elim

/-- **A byte**, by its case of the switch. -/
theorem Reads.byte {r r' : Reader} {ch : UInt8} (hover : r.parser.count.overflows = false)
    (h : r.parser.Ok → (switch r.parser.count ch 1).apply ch r.pending r.made = some r') :
    Reads r [ch] r' := by
  rintro p ⟨hok, m, hstarts, hm⟩
  -- a state that keeps to the discipline does what its plan applied says
  have hbehind : ((switch r.parser.count ch 1).run accepting
      ⟨r.parser.count, marksOf r.pending, p, [ch], r.made⟩).Behind p r' ∧ (r'.exec (p + 1)).Ready :=
    run_apply (switch_disciplined hok hstarts ch) (holds_exec.mp hm) (h hok)
  refine ⟨?_, hbehind.2⟩
  have hread : (readByte accepting ch { r.exec p with rest := [ch] }).Behind p r' := by
    unfold readByte
    dsimp only [Reader.exec]
    rw [if_neg (by simp [hover])]
    exact hbehind.1
  have herr : ¬ (r.exec p).parser.errno ≠ .ok := not_not.mpr hok.sound.1
  rw [scan, List.foldlM_cons, scanByte, if_neg herr]
  unfold Outcome.Behind at hread
  split at hread <;> rename_i heq
  · rw [heq]
    exact congrArg Except.ok hread
  · rw [heq]
    exact congrArg Except.ok hread
  · exact hread.elim

/-- **What is read** is what a connection makes of the text, in whatever segments it arrives. -/
theorem feed_reads {t : ParserType} {bs : Bytes} {q : Parser} {made : List Callback}
    (h : Reads ⟨.init t, none, []⟩ bs ⟨q, none, made⟩) {segments : List Bytes}
    (hsegments : segments.flatten = bs) :
    ∃ c, Session.feed accepting (.start t) segments = .ok c ∧ c.parser = q ∧ q.errno = .ok ∧
      c.consumed = bs.length ∧ whole c.made = whole made := by
  obtain ⟨c, x, hc, hx, hfollows⟩ :=
    feed_follows accepting_acceptsData accepting_seesWhole (follows_start t) segments
  have hnone : (Parser.init t).state.resumes = none := by cases t <;> rfl
  have hready : (Reader.exec ⟨.init t, none, []⟩ 0).Ready :=
    ⟨init_ok t, .clear, by simp [MarkClass.Starts, Reader.exec, hnone], rfl⟩
  obtain ⟨hscan, hready'⟩ := h 0 hready
  have hstart : Reader.exec ⟨.init t, none, []⟩ 0 = Exec.start t := rfl
  rw [hstart, ← hsegments, hx] at hscan
  obtain rfl := Except.ok.inj hscan
  have he : q.errno = .ok := hready'.1.sound.1
  have hpending := pending_clear (x := Reader.exec ⟨q, none, made⟩ (0 + segments.flatten.length)) rfl
  have hmade := hfollows.whole_eq he
  rw [hpending, List.append_nil] at hmade
  refine ⟨c, hc, hfollows.parser.symm, he, ?_, hmade.symm⟩
  rw [← hfollows.consumed, ← hsegments]
  exact Nat.zero_add _

end Sails.HttpParser
