import Sails.Net.HttpParser.Reading

/-!
# Callbacks that return 0

What is read with callbacks that all succeed is read with any callbacks that happen to succeed there.

- `Settings.Accepts`: the callbacks made all return 0
- `FromParser`: a callback with the parser's answers about a record
- `Outcome.Adds`: what a piece of the code adds to the callbacks made
- `run_of_accepts` .. `feed_of_accepts`: a case, the loop, a call, a connection
-/

namespace Sails.HttpParser

open TransitionRun (Fault)
open CMemory
open Sails.Net (Callback)

/-- Every callback that has been made has returned 0. -/
def Settings.Accepts (s : Settings) (made : List Callback) : Prop :=
  ∀ before c, before ++ [c] <+: made → s before c = 0

/-- The callback is one that the macros make. -/
inductive FromParser : Callback → Prop
  | piece (k : DataKind) (q : Parser) (text : Bytes) : FromParser (k.callback q text)
  | messageBegin : FromParser .messageBegin
  | headersComplete (q : Parser) : FromParser (.headersComplete q.view)
  | messageComplete (q : Parser) : FromParser (.messageComplete q.view)

section Accepts

variable {s : Settings} {made made' made'' : List Callback}

theorem Settings.Accepts.of_prefix (h : s.Accepts made') (hpre : made <+: made') :
    s.Accepts made := fun before c hc => h before c (hc.trans hpre)

/-- Callbacks have been made, and only by the macros. -/
def Adds (made made' : List Callback) : Prop :=
  ∃ more : List Callback, made' = made ++ more ∧ ∀ c ∈ more, FromParser c

theorem Adds.refl (made : List Callback) : Adds made made :=
  ⟨[], (List.append_nil made).symm, fun _ hc => absurd hc List.not_mem_nil⟩

theorem Adds.trans (h : Adds made made') (h' : Adds made' made'') : Adds made made'' := by
  obtain ⟨more, rfl, hmore⟩ := h
  obtain ⟨more', rfl, hmore'⟩ := h'
  refine ⟨more ++ more', List.append_assoc .., fun c hc => ?_⟩
  exact (List.mem_append.mp hc).elim (hmore c) (hmore' c)

theorem Adds.isPrefix (h : Adds made made') : made <+: made' := by
  obtain ⟨more, rfl, -⟩ := h
  exact List.prefix_append made more

theorem adds_one {c : Callback} (h : FromParser c) (made : List Callback) :
    Adds made (made ++ [c]) :=
  ⟨[c], rfl, fun _ hx => List.mem_singleton.mp hx ▸ h⟩

end Accepts

/-! ## The pieces of `http_parser_execute` -/

/-- The callbacks made at the end of a piece; none are known after a fault. -/
def Outcome.Made (P : List Callback → Prop) : Outcome → Prop
  | .next x => P x.made
  | .returned x _ => P x.made
  | .fault _ => False

/-- A piece begun with the callbacks `made` adds some. -/
def Outcome.Adds (made : List Callback) : Outcome → Prop
  | .next x => HttpParser.Adds made x.made
  | .returned x _ => HttpParser.Adds made x.made
  | .fault _ => True

section Pieces

variable {s : Settings} {x : Exec} {q : Parser}

theorem Outcome.Adds.trans {made made' : List Callback} {o : Outcome}
    (h : HttpParser.Adds made made') (ho : o.Adds made') : o.Adds made := by
  cases o with
  | next y => exact HttpParser.Adds.trans h ho
  | returned y n => exact HttpParser.Adds.trans h ho
  | fault f => trivial

/-- All callbacks of a piece return 0, so those made before the end do. -/
theorem Outcome.Made.accepts {made : List Callback} {o : Outcome} (ho : o.Made s.Accepts)
    (h : o.Adds made) : s.Accepts made := by
  cases o with
  | next y => exact Settings.Accepts.of_prefix ho (HttpParser.Adds.isPrefix h)
  | returned y n => exact Settings.Accepts.of_prefix ho (HttpParser.Adds.isPrefix h)
  | fault f => exact ho.elim

theorem notify_adds {c : Callback} (hc : FromParser c) (e : Errno) (er : Nat)
    {rest : Exec → Outcome} (hrest : ∀ y, (rest y).Adds y.made) :
    (notify s c e er q rest x).Adds x.made := by
  unfold notify
  have hadds := adds_one hc x.made
  split_ifs
  · trivial
  · exact hadds
  · exact Outcome.Adds.trans hadds (hrest _)

theorem handOver_adds (k : DataKind) (more : Bytes) (er : Nat) {rest : Exec → Outcome}
    (hrest : ∀ y, (rest y).Adds y.made) :
    (handOver s k more er q rest x).Adds x.made := by
  unfold handOver
  split
  · trivial
  · split
    · exact hrest x
    · exact notify_adds (.piece k q _) _ _ fun y => hrest (y.unmark k)

/-- **A case of the switch** only adds callbacks. -/
theorem run_adds (s : Settings) (plan : Plan) (x : Exec) : (plan.run s x).Adds x.made := by
  induction plan generalizing x with
  | next q => exact Adds.refl _
  | error e q => exact Adds.refl _
  | mark k rest ih => exact ih _
  | skip n rest ih => exact ih _
  | data k q rest ih | dataNoadvance k q rest ih | dataThrough k q rest ih =>
    exact handOver_adds k _ _ ih
  | messageBegin q rest ih => exact notify_adds .messageBegin _ _ ih
  | messageComplete q rest ih => exact notify_adds (.messageComplete q) _ _ ih
  | headersComplete q rest ih =>
    have hadds := adds_one (.headersComplete q) x.made
    simp only [Plan.run, askHeadersComplete]
    split_ifs
    · exact Outcome.Adds.trans hadds (ih false _)
    · exact Outcome.Adds.trans hadds (ih true _)
    · exact hadds
  | exit q => exact Adds.refl _
  | fault f => trivial

theorem notify_of_accepts {c : Callback} {e : Errno} {er : Nat}
    {rest rest' : Exec → Outcome} (hadds : ∀ y, (rest y).Adds y.made)
    (hrest : ∀ y, (rest y).Made s.Accepts → rest' y = rest y)
    (h : (notify accepting c e er q rest x).Made s.Accepts) :
    notify s c e er q rest' x = notify accepting c e er q rest x := by
  by_cases herr : q.errno = .ok
  · have haccepting : notify accepting c e er q rest x = rest (x.call q c) := by
      rw [notify, if_neg (not_not.mpr herr)]
      rfl
    rw [haccepting] at h ⊢
    have hzero : s x.made c = 0 := (h.accepts (hadds _)) x.made c (List.prefix_refl _)
    rw [notify, if_neg (not_not.mpr herr), if_neg (not_not.mpr hzero)]
    exact hrest _ h
  · rw [notify, if_pos herr] at h
    exact h.elim

theorem handOver_of_accepts {k : DataKind} {more : Bytes} {er : Nat} {rest rest' : Exec → Outcome}
    (hadds : ∀ y, (rest y).Adds y.made)
    (hrest : ∀ y, (rest y).Made s.Accepts → rest' y = rest y)
    (h : (handOver accepting k more er q rest x).Made s.Accepts) :
    handOver s k more er q rest' x = handOver accepting k more er q rest x := by
  unfold handOver at h ⊢
  split at h
  · exact h.elim
  · rename_i herr
    rw [if_neg herr, if_neg herr]
    cases hmark : x.marks k with
    | none =>
      rw [hmark] at h
      exact hrest x h
    | some text =>
      rw [hmark] at h
      exact notify_of_accepts (fun y => hadds (y.unmark k))
        (fun y => hrest (y.unmark k)) h

/-- **A case of the switch** goes the same way if all its callbacks return 0. -/
theorem run_of_accepts (plan : Plan) (x : Exec) (h : (plan.run accepting x).Made s.Accepts) :
    plan.run s x = plan.run accepting x := by
  induction plan generalizing x with
  | next q | error e q | exit q | fault f => rfl
  | mark k rest ih | skip n rest ih => exact ih _ h
  | data k q rest ih | dataNoadvance k q rest ih | dataThrough k q rest ih =>
    exact handOver_of_accepts (run_adds _ rest) ih h
  | messageBegin q rest ih | messageComplete q rest ih =>
    exact notify_of_accepts (run_adds _ rest) ih h
  | headersComplete q rest ih =>
    have hrest : ((rest false).run accepting (x.call q (.headersComplete q.view))).Made s.Accepts := h
    have hzero : s x.made (.headersComplete q.view) = 0 :=
      (hrest.accepts (run_adds _ _ _)) x.made _ (List.prefix_refl _)
    simp only [Plan.run, askHeadersComplete, hzero, if_true]
    exact ih false _ hrest

/-- One byte. -/
theorem iterate_adds (s : Settings) (ch : UInt8) (x : Exec) : (iterate s ch x).Adds x.made := by
  unfold iterate
  dsimp only
  split
  · exact Adds.refl _
  · exact run_adds s _ _

theorem iterate_of_accepts {ch : UInt8} (h : (iterate accepting ch x).Made s.Accepts) :
    iterate s ch x = iterate accepting ch x := by
  unfold iterate at h ⊢
  dsimp only at h ⊢
  split at h
  · rename_i hover
    rw [if_pos hover, if_pos hover]
  · rename_i hover
    rw [if_neg hover, if_neg hover]
    exact run_of_accepts _ _ h

theorem andThen_adds {made : List Callback} {o : Outcome} {rest : Exec → Outcome}
    (ho : o.Adds made) (hrest : ∀ y, (rest y).Adds y.made) : (o.andThen rest).Adds made := by
  cases o with
  | next y => exact Outcome.Adds.trans ho (hrest y)
  | returned y n => exact ho
  | fault f => trivial

/-- All bytes. -/
theorem loop_adds (s : Settings) (turns : Nat) (x : Exec) : (loop s turns x).Adds x.made := by
  induction turns generalizing x with
  | zero => exact Adds.refl _
  | succ turns ih =>
    rw [loop]
    cases x.rest with
    | nil => exact Adds.refl _
    | cons ch rest => exact andThen_adds (iterate_adds s ch x) fun y => ih (y.advance 1)

theorem loop_of_accepts {turns : Nat} (h : (loop accepting turns x).Made s.Accepts) :
    loop s turns x = loop accepting turns x := by
  -- by induction on the turns: what this one has made is among what is made in the end
  induction turns generalizing x with
  | zero => rfl
  | succ turns ih =>
    rw [loop, loop]
    rw [loop] at h
    cases hrest : x.rest with
    | nil => rfl
    | cons ch rest =>
      rw [hrest] at h
      dsimp only at h ⊢
      cases hit : iterate accepting ch x with
      | next y =>
        rw [hit] at h
        -- the callbacks of this turn are accepted, since those of the whole loop are
        have hmade : (Outcome.next y).Made s.Accepts := h.accepts (loop_adds _ _ _)
        rw [iterate_of_accepts (hit ▸ hmade), hit]
        exact ih h
      | returned y n =>
        rw [hit] at h
        rw [iterate_of_accepts (hit ▸ h), hit]
        rfl
      | fault f =>
        rw [hit] at h
        exact h.elim

end Pieces

/-! ## Calls -/

section Calls

variable {s : Settings} {q : Parser} {made : List Callback} {data : Bytes}

theorem finish_adds {len : Nat} {x : Exec} {r : Executed} (h : finish s len x = .ok r) :
    Adds x.made r.made := by
  unfold finish at h
  split at h
  · have hadds := run_adds s (leftover x.parser) x
    split at h <;> rename_i hrun
    · rw [hrun] at hadds
      exact Except.ok.inj h ▸ hadds
    · rw [hrun] at hadds
      exact Except.ok.inj h ▸ hadds
    · cases h
  · cases h

theorem finish_of_accepts {len : Nat} {x : Exec} {r : Executed} (h : finish accepting len x = .ok r)
    (hr : s.Accepts r.made) : finish s len x = .ok r := by
  unfold finish at h ⊢
  split at h
  · rename_i hmarks
    rw [if_pos hmarks]
    have hmade : ((leftover x.parser).run accepting x).Made s.Accepts := by
      split at h <;> rename_i hrun <;> rw [hrun] <;> cases h <;> exact hr
    rw [run_of_accepts _ _ hmade]
    exact h
  · cases h

theorem executeEof_adds (s : Settings) (q : Parser) (made : List Callback) :
    Adds made (executeEof s q made).made := by
  unfold executeEof
  split
  · exact adds_one (.messageComplete q) made
  all_goals exact Adds.refl _

theorem executeEof_of_accepts (h : s.Accepts (executeEof accepting q made).made) :
    executeEof s q made = executeEof accepting q made := by
  unfold executeEof at h ⊢
  cases hq : q.state
  case bodyIdentityEof =>
    rw [hq] at h
    have hzero : s made (.messageComplete q.view) = 0 := h made _ (List.prefix_refl _)
    simp only [hzero, accepting, ne_eq, not_true_eq_false, if_false]
  all_goals rfl

/-- A call only adds callbacks. -/
theorem execute_adds {r : Executed} (h : execute s q made data = .ok r) : Adds made r.made := by
  unfold execute at h
  split at h
  · exact Except.ok.inj h ▸ Adds.refl _
  · split at h
    · exact Except.ok.inj h ▸ executeEof_adds s q made
    · have hadds := loop_adds s data.length ⟨q, startMarks q.state, 0, data, made⟩
      split at h <;> rename_i hloop <;> rw [hloop] at hadds
      · exact Adds.trans hadds (finish_adds h)
      · exact Except.ok.inj h ▸ hadds
      · cases h

/-- **A call** leaves the same if all its callbacks return 0. -/
theorem execute_of_accepts {r : Executed} (h : execute accepting q made data = .ok r)
    (hr : s.Accepts r.made) : execute s q made data = .ok r := by
  unfold execute at h ⊢
  split at h
  · rename_i herr
    rw [if_pos herr]
    exact h
  · rename_i herr
    rw [if_neg herr]
    split at h
    · rename_i hdata
      rw [if_pos hdata]
      obtain rfl := Except.ok.inj h
      congr 1
      exact executeEof_of_accepts hr
    · rename_i hdata
      rw [if_neg hdata]
      -- the callbacks of the loop come before those of `finish`
      have hmade : (loop accepting data.length ⟨q, startMarks q.state, 0, data, made⟩).Made
          s.Accepts := by
        split at h <;> rename_i hloop <;> rw [hloop]
        · exact hr.of_prefix (finish_adds h).isPrefix
        · cases h
          exact hr
        · cases h
      rw [loop_of_accepts hmade]
      split at h
      · exact finish_of_accepts h hr
      · exact h
      · cases h

theorem offer_adds {tries : Nat} {c c' : Session} (h : c.offer s tries data = .ok c') :
    Adds c.made c'.made := by
  induction tries generalizing c data with
  | zero => exact Except.ok.inj h ▸ Adds.refl _
  | succ tries ih =>
    rw [Session.offer] at h
    split at h
    · exact Except.ok.inj h ▸ Adds.refl _
    · obtain ⟨r, hr, h⟩ := TransitionRun.ok_of_bind h
      have hadds := execute_adds hr
      dsimp only at h
      split at h
      · exact Except.ok.inj h ▸ hadds
      · exact hadds.trans (ih h)

theorem offer_of_accepts {tries : Nat} {c c' : Session} (h : c.offer accepting tries data = .ok c')
    (hc : s.Accepts c'.made) : c.offer s tries data = .ok c' := by
  -- by induction on the tries
  induction tries generalizing c data with
  | zero => exact h
  | succ tries ih =>
    rw [Session.offer] at h ⊢
    split at h
    · rename_i hdata
      rw [if_pos hdata]
      exact h
    · rename_i hdata
      rw [if_neg hdata]
      obtain ⟨r, hr, h⟩ := TransitionRun.ok_of_bind h
      dsimp only at h
      have hmade : s.Accepts r.made := by
        split at h
        · cases h
          exact hc
        · exact hc.of_prefix (offer_adds h).isPrefix
      rw [execute_of_accepts hr hmade]
      split at h
      · rename_i hzero
        exact (if_pos hzero).trans h
      · rename_i hzero
        exact (if_neg hzero).trans (ih h)

theorem feed_nil (c : Session) : c.feed s [] = .ok c := rfl

theorem feed_cons (c : Session) (data : Bytes) (segments : List Bytes) :
    c.feed s (data :: segments) =
      c.offer s (data.length + 1) data >>= fun c => c.feed s segments :=
  List.foldlM_cons

theorem feed_adds {c c' : Session} {segments : List Bytes} (h : c.feed s segments = .ok c') :
    Adds c.made c'.made := by
  induction segments generalizing c with
  | nil => exact Except.ok.inj h ▸ Adds.refl _
  | cons data segments ih =>
    rw [feed_cons] at h
    obtain ⟨c₁, hoffer, hrest⟩ := TransitionRun.ok_of_bind h
    exact (offer_adds hoffer).trans (ih hrest)

/-- **A connection** is read in the same way if all callbacks return 0. -/
theorem feed_of_accepts {c c' : Session} {segments : List Bytes}
    (h : c.feed accepting segments = .ok c') (hc : s.Accepts c'.made) :
    c.feed s segments = .ok c' := by
  induction segments generalizing c with
  | nil =>
    rw [feed_nil] at h ⊢
    exact h
  | cons data segments ih =>
    rw [feed_cons] at h ⊢
    obtain ⟨c₁, hoffer, hrest⟩ := TransitionRun.ok_of_bind h
    rw [offer_of_accepts hoffer (hc.of_prefix (feed_adds hrest).isPrefix)]
    exact (pure_bind c₁ fun c => c.feed s segments).trans (ih hrest)

end Calls

end Sails.HttpParser
