import Sails.Net.HttpParser.HeaderNames

/-!
# Reading the value of a header

What a value means depends on the name: a length, one of a few words, nothing.

- `readLength`: what the parser takes for a length
- `KnownValue`, `announce`: the words, and what a header leaves in the record
- `ValueTracks`, `valueHeaderState_tracks`: the switch on `header_state`, as recognisers of the words
- `reads_headerLine`: a header with its line end
-/

namespace Sails.HttpParser

open CMemory
open WordMatch
open Sails.Net (Callback)

/-! ## What a value means -/

/-- A further character of a length: blanks are skipped. -/
def lengthStep (l : Nat) (ch : UInt8) : Option Nat :=
  if ch = code ' ' then some l
  else if !isNum ch then none
  else if (ullongMax - 10) / 10 < l then none
  else some (l * 10 + digit ch)

/-- The length a value stands for. -/
def readLength : Bytes → Option Nat
  | [] => none
  | ch :: cs => if isNum ch then cs.foldlM lengthStep (digit ch) else none

/-- The words the parser knows. -/
inductive KnownValue where
  | chunked
  | keepAlive
  | close
  deriving DecidableEq

def KnownValue.word : KnownValue → Bytes
  | chunked => ascii "chunked"
  | keepAlive => ascii "keep-alive"
  | close => ascii "close"

/-- The header state behind a known word. -/
def KnownValue.seen : KnownValue → HeaderState
  | chunked => .transferEncodingChunked
  | keepAlive => .connectionKeepAlive
  | close => .connectionClose

/-- The value is this word, in upper or lower case, with blanks behind it. -/
def IsValue (n : KnownValue) (value : Bytes) : Prop := IsWord lower isBlank n.word value

instance (n : KnownValue) (value : Bytes) : Decidable (IsValue n value) :=
  inferInstanceAs (Decidable (IsWord ..))

/-- The words a header of this kind may have. -/
def HeaderState.mayBe : HeaderState → KnownValue → Bool
  | transferEncoding, .chunked => true
  | connection, .keepAlive | connection, .close => true
  | _, _ => false

/-- The flags a header of this kind leaves. -/
def announceFlags (kind : HeaderState) (value : Bytes) (f : Flags) : Flags :=
  match kind with
  | .upgrade => { f with upgrade := true }
  | .transferEncoding => if IsValue .chunked value then { f with chunked := true } else f
  | .connection =>
    if IsValue .keepAlive value then { f with connectionKeepAlive := true }
    else if IsValue .close value then { f with connectionClose := true }
    else f
  | _ => f

/-- What a header leaves in the record; `none` for a length that is not taken. A header without a
value leaves nothing. -/
def announce (name value : Bytes) (a : Flags × Nat) : Option (Flags × Nat) :=
  if value = [] then some a
  else if nameKind name = .contentLength then (readLength value).map fun l => (a.1, l)
  else some (announceFlags (nameKind name) value a.1, a.2)

/-! ## One character -/

section OneCharacter

variable {q : Parser} {ch : UInt8} {i : Nat}

/-- The header state of `s_header_value` and its index, and what the recognisers say. -/
def ValueTracks (hd : HeaderState) (i : Nat) (ps : KnownValue → Progress) : Prop :=
  match hd with
  | .general => ps = fun _ => .failed
  | .matchingTransferEncodingChunked => i + 1 < 7 ∧ ps = only .chunked (.matching i)
  | .matchingConnectionKeepAlive => i + 1 < 10 ∧ ps = only .keepAlive (.matching i)
  | .matchingConnectionClose => i + 1 < 5 ∧ ps = only .close (.matching i)
  | .transferEncodingChunked => ps = only .chunked .seen
  | .connectionKeepAlive => ps = only .keepAlive .seen
  | .connectionClose => ps = only .close .seen
  | _ => False

/-- All recognisers take one more character. -/
def stepValues (ps : KnownValue → Progress) (ch : UInt8) : KnownValue → Progress :=
  stepAll lower isBlank KnownValue.word ps ch

/-- Along one of the words. -/
theorem matchNext_value {m : HeaderState} (n : KnownValue) (hi : q.index + 1 < n.word.length)
    (hm : q.headerState = m)
    (hmatching : ∀ j, j + 1 < n.word.length → ValueTracks m j (only n (.matching j)))
    (hseen : ∀ j, ValueTracks n.seen j (only n .seen)) :
    ∃ hd i, ValueChar.go (matchNext n.word n.seen q (lower ch)) =
        .go { q with index := i, headerState := hd } ∧
      ValueTracks hd i (stepValues (only n (.matching q.index)) ch) := by
  have hlen : n.word.length ≤ 255 := by cases n <;> decide
  obtain ⟨hd, p, heq, hp, hcases⟩ := matchNext_step n.seen lower rfl hi hlen hm ch
  refine ⟨hd, _, by rw [heq], ?_⟩
  rw [stepValues, stepAll_only, hp]
  obtain ⟨rfl, rfl⟩ | ⟨rfl, hlt, rfl⟩ | ⟨rfl, rfl⟩ := hcases
  · exact hseen _
  · exact hmatching _ hlt
  · exact only_failed n

/-- Behind a word only blanks may follow. -/
theorem seen_value (n : KnownValue) (hq : q.headerState = n.seen)
    (hseen : ∀ j, ValueTracks n.seen j (only n .seen)) :
    ∃ hd i, ValueChar.go (if ch ≠ code ' ' then { q with headerState := .general } else q) =
        .go { q with index := i, headerState := hd } ∧
      ValueTracks hd i (stepValues (only n .seen) ch) := by
  rw [stepValues, stepAll_only]
  by_cases hch : ch = code ' '
  · refine ⟨n.seen, q.index, by simp [hch, ← hq], ?_⟩
    simpa [Progress.step, isBlank, hch] using hseen q.index
  · refine ⟨.general, q.index, by simp [hch], ?_⟩
    simp [Progress.step, isBlank, hch, only_failed, ValueTracks]

/-- **One character of a value** that is not a length. -/
theorem valueHeaderState_tracks {ps : KnownValue → Progress}
    (h : ValueTracks q.headerState q.index ps) (ch : UInt8) :
    ∃ hd i, valueHeaderState q ch = .go { q with index := i, headerState := hd } ∧
      ValueTracks hd i (stepValues ps ch) := by
  -- one case for each thing the parser looks for in a value
  unfold valueHeaderState
  cases hq : q.headerState <;> rw [hq] at h
  case general => exact ⟨.general, q.index, by simp [← hq], h.symm ▸ rfl⟩
  case matchingTransferEncodingChunked =>
    obtain ⟨hi, rfl⟩ := h
    exact matchNext_value .chunked hi hq (fun j hj => ⟨hj, rfl⟩) fun j => rfl
  case matchingConnectionKeepAlive =>
    obtain ⟨hi, rfl⟩ := h
    exact matchNext_value .keepAlive hi hq (fun j hj => ⟨hj, rfl⟩) fun j => rfl
  case matchingConnectionClose =>
    obtain ⟨hi, rfl⟩ := h
    exact matchNext_value .close hi hq (fun j hj => ⟨hj, rfl⟩) fun j => rfl
  case transferEncodingChunked =>
    obtain rfl : ps = _ := h
    exact seen_value .chunked hq fun j => rfl
  case connectionKeepAlive =>
    obtain rfl : ps = _ := h
    exact seen_value .keepAlive hq fun j => rfl
  case connectionClose =>
    obtain rfl : ps = _ := h
    exact seen_value .close hq fun j => rfl
  all_goals exact h.elim

end OneCharacter

/-! ## A value -/

section Values

variable {q : Parser} {w : List Callback} {ch : UInt8} {value : Bytes} {kind : HeaderState}

/-- The blank or tab that may stand in front of a value. -/
def IsWs (ch : UInt8) : Prop := ch = code ' ' ∨ ch = 9

instance (ch : UInt8) : Decidable (IsWs ch) := inferInstanceAs (Decidable (_ ∨ _))

/-- What most senders put in front of a value. -/
theorem isWs_blank : ∀ c ∈ ascii " ", IsWs c := forall_mem_of_all (by decide)

/-- What stands in front of a value is skipped. -/
theorem reads_ws {ws : Bytes} (hs : q.state = .headerValueDiscardWs) (hws : ∀ c ∈ ws, IsWs c)
    (hn : q.nread + ws.length ≤ httpMaxHeaderSize) :
    Reads ⟨q, none, w⟩ ws ⟨{ q with nread := q.nread + ws.length }, none, w⟩ := by
  induction ws generalizing q with
  | nil => exact Reads.nil _
  | cons c ws ih =>
    rw [List.length_cons] at hn ⊢
    have hc : c = code ' ' ∨ c = 9 := hws c (List.mem_cons_self ..)
    have hbyte : Reads ⟨q, none, w⟩ [c] ⟨{ q with nread := q.nread + 1 }, none, w⟩ := by
      refine Reads.header (by rw [hs]; rfl) (by omega) fun _ => ?_
      simp only [switch, hs, headerValueDiscardWsCase, if_pos hc]
      rfl
    have hmore := ih (q := { q with nread := q.nread + 1 }) hs
      (fun x hx => hws x (List.mem_cons_of_mem _ hx)) (by dsimp only; omega)
    rw [show q.nread + (ws.length + 1) = q.nread + 1 + ws.length by omega]
    exact hbyte.cons hmore

/-- The recognisers of the words that a header of this kind may have. -/
def candidates (kind : HeaderState) (ps : KnownValue → Progress) : KnownValue → Progress := fun n =>
  if kind.mayBe n then ps n else .failed

theorem stepValues_candidates (ps : KnownValue → Progress) (ch : UInt8) :
    stepValues (candidates kind ps) ch = candidates kind (stepValues ps ch) := by
  funext n
  by_cases hn : kind.mayBe n = true
  · simp [stepValues, stepAll, candidates, hn]
  · simp [stepValues, stepAll, candidates, hn, Progress.step]

/-- The first character of a value that is not a length. -/
theorem firstOfValue_tracks (hk : q.headerState.kind = kind) (hlength : kind ≠ .contentLength)
    (ch : UInt8) :
    ∃ hd, firstOfValue q ch = some { q with
        flags := if kind = .upgrade then { q.flags with upgrade := true } else q.flags
        headerState := hd } ∧
      ValueTracks hd 0 (candidates kind fun n => .first lower n.word ch) := by
  -- a header whose value means nothing has no candidates
  have hfailed : ∀ k : HeaderState, (∀ n, k.mayBe n = false) → ∀ ps : KnownValue → Progress,
      candidates k ps = fun _ => .failed := by
    intro k hk ps
    funext n
    simp [candidates, hk n]
  unfold firstOfValue
  cases hq : q.headerState <;> rw [hq] at hk <;> subst hk
  case contentLength => exact absurd rfl hlength
  case upgrade => exact ⟨.general, rfl, hfailed _ (fun n => by cases n <;> rfl) _⟩
  case transferEncoding =>
    dsimp only
    -- `chunked` is the only word looked for
    by_cases hc : lower ch = code 'c'
    · rw [if_pos hc]
      refine ⟨_, rfl, by decide, ?_⟩
      funext n
      cases n <;> simp only [candidates, Progress.first, hc] <;> rfl
    · rw [if_neg hc]
      refine ⟨_, rfl, ?_⟩
      funext n
      cases n
      case chunked => exact if_neg fun h => hc (Option.some.inj h).symm
      all_goals rfl
  case connection =>
    dsimp only
    -- `keep-alive` and `close` begin differently, so that at most one goes on
    by_cases hk : lower ch = code 'k'
    · rw [if_pos hk]
      refine ⟨_, rfl, by decide, ?_⟩
      funext n
      cases n <;> simp only [candidates, Progress.first, hk] <;> rfl
    · rw [if_neg hk]
      by_cases hc : lower ch = code 'c'
      · rw [if_pos hc]
        refine ⟨_, rfl, by decide, ?_⟩
        funext n
        cases n <;> simp only [candidates, Progress.first, hc] <;> rfl
      · rw [if_neg hc]
        refine ⟨_, rfl, ?_⟩
        funext n
        cases n
        case keepAlive => exact if_neg fun h => hk (Option.some.inj h).symm
        case close => exact if_neg fun h => hc (Option.some.inj h).symm
        case chunked => rfl
  all_goals
    refine ⟨.general, ?_, hfailed _ (fun n => by cases n <;> rfl) _⟩
    simp [HeaderState.kind]

/-- Further characters of a value that is not a length. -/
theorem reads_valueChars {cs t : Bytes} {ps : KnownValue → Progress} (hs : q.state = .headerValue)
    (hps : ValueTracks q.headerState q.index ps) (hcs : ∀ c ∈ cs, c ≠ cr ∧ c ≠ lf)
    (hn : q.nread + cs.length ≤ httpMaxHeaderSize) :
    ∃ hd i, Reads ⟨q, some (.headerValue, t), w⟩ cs
      ⟨{ q with index := i, headerState := hd, nread := q.nread + cs.length },
        some (.headerValue, t ++ cs), w⟩ ∧
      ValueTracks hd i (cs.foldl stepValues ps) := by
  -- by induction on the characters: each goes to the mark, and the candidates make a step
  induction cs generalizing q t ps with
  | nil =>
    refine ⟨q.headerState, q.index, ?_, hps⟩
    rw [List.append_nil]
    exact Reads.nil _
  | cons c cs ih =>
    rw [List.length_cons] at hn ⊢
    obtain ⟨hcr, hlf⟩ := hcs c (List.mem_cons_self ..)
    obtain ⟨hd, i, hstate, htracks⟩ := valueHeaderState_tracks
      (q := { q with nread := q.nread + 1 }) hps c
    have hbyte : Reads ⟨q, some (.headerValue, t), w⟩ [c]
        ⟨{ q with index := i, headerState := hd, nread := q.nread + 1 },
          some (.headerValue, t ++ [c]), w⟩ := by
      refine Reads.header (by rw [hs]; rfl) (by omega) fun _ => ?_
      simp only [switch, hs, headerValueCase, if_neg hcr, if_neg hlf]
      rw [← hs, hstate]
      rfl
    obtain ⟨hd', i', hmore, htracks'⟩ := ih
      (q := { q with index := i, headerState := hd, nread := q.nread + 1 }) (t := t ++ [c]) hs htracks
      (fun x hx => hcs x (List.mem_cons_of_mem _ hx)) (by dsimp only; omega)
    refine ⟨hd', i', ?_, htracks'⟩
    rw [show q.nread + (cs.length + 1) = q.nread + 1 + cs.length by omega]
    rw [List.append_assoc, List.singleton_append] at hmore
    exact hbyte.cons hmore

/-- Further characters of a length. -/
theorem reads_lengthChars {cs t : Bytes} {l : Nat} (hs : q.state = .headerValue)
    (hd : q.headerState = .contentLength) (hl : cs.foldlM lengthStep q.contentLength = some l)
    (hn : q.nread + cs.length ≤ httpMaxHeaderSize) :
    Reads ⟨q, some (.headerValue, t), w⟩ cs
      ⟨{ q with contentLength := l, nread := q.nread + cs.length },
        some (.headerValue, t ++ cs), w⟩ := by
  -- by induction on the characters: each goes to the mark, and a digit to the length
  induction cs generalizing q t with
  | nil =>
    obtain rfl : q.contentLength = l := Option.some.inj hl
    rw [List.append_nil]
    exact Reads.nil _
  | cons c cs ih =>
    rw [List.length_cons] at hn ⊢
    rw [List.foldlM_cons] at hl
    obtain ⟨l', hstep, hrest⟩ := Option.bind_eq_some_iff.mp hl
    have hbyte : Reads ⟨q, some (.headerValue, t), w⟩ [c]
        ⟨{ q with contentLength := l', nread := q.nread + 1 }, some (.headerValue, t ++ [c]),
          w⟩ := by
      unfold lengthStep at hstep
      refine Reads.header (by rw [hs]; rfl) (by omega) fun _ => ?_
      simp only [switch, hs, headerValueCase]
      -- a blank inside a length is passed over
      split_ifs at hstep with hspace hnum hover
      · obtain rfl := Option.some.inj hstep
        have hcr : c ≠ cr := by rw [hspace]; decide
        have hlf : c ≠ lf := by rw [hspace]; decide
        simp only [if_neg hcr, if_neg hlf, valueHeaderState, hd, if_pos hspace]
        rw [← hs, ← hd]
        rfl
      · obtain rfl := Option.some.inj hstep
        have hcr : c ≠ cr := by rintro rfl; exact hnum (by decide)
        have hlf : c ≠ lf := by rintro rfl; exact hnum (by decide)
        simp only [if_neg hcr, if_neg hlf, valueHeaderState, hd, if_neg hspace, if_neg hnum,
          if_neg hover]
        rw [← hs, ← hd]
        rfl
    have hmore := ih (q := { q with contentLength := l', nread := q.nread + 1 }) (t := t ++ [c]) hs hd
      hrest (by dsimp only; omega)
    rw [show q.nread + (cs.length + 1) = q.nread + 1 + cs.length by omega]
    rw [List.append_assoc, List.singleton_append] at hmore
    exact hbyte.cons hmore

/-- The first character of a value sets the mark. -/
theorem reads_firstChar (q' : Parser) (hs : q.state = .headerValueDiscardWs) (hws : ¬ IsWs ch)
    (hcr : ch ≠ cr) (hlf : ch ≠ lf) (hn : q.nread < httpMaxHeaderSize)
    (hfirst : firstOfValue { q with state := .headerValue, index := 0, nread := q.nread + 1 } ch =
      some q') : Reads ⟨q, none, w⟩ [ch] ⟨q', some (.headerValue, [ch]), w⟩ := by
  have hws' : ¬ (ch = code ' ' ∨ ch = 9) := hws
  refine Reads.header (by rw [hs]; rfl) hn fun _ => ?_
  simp only [switch, hs, headerValueDiscardWsCase, if_neg hws', if_neg hcr, if_neg hlf,
    headerValueStartCase, Plan.apply]
  rw [hfirst]
  rfl

/-- The line end behind a value hands it over. -/
theorem reads_valueEnd (value : Bytes) (hs : q.state = .headerValue) (hn : q.nread + 2 ≤ httpMaxHeaderSize) :
    Reads ⟨q, some (.headerValue, value), w⟩ [cr, lf]
      ⟨{ q with state := .headerValueLws, nread := q.nread + 2 }, none,
        w ++ [.headerValue value]⟩ := by
  have hcr : Reads ⟨q, some (.headerValue, value), w⟩ [cr]
      ⟨{ q with state := .headerAlmostDone, nread := q.nread + 1 }, none,
        w ++ [.headerValue value]⟩ := by
    refine Reads.header (by rw [hs]; rfl) (by omega) fun _ => ?_
    simp only [switch, hs, headerValueCase]
    rfl
  have hlf := reads_expected (q := { q with state := .headerAlmostDone, nread := q.nread + 1 })
    (w := w ++ [.headerValue value]) (c := lf) .headerValueLws rfl rfl
    (by dsimp only; omega)
    fun q hq => by simp [switch, hq, headerAlmostDoneCase, expectCase, strictCheck]
  exact hcr.cons hlf

/-- The flags behind a header whose value has been read to its end. -/
def endFlags (hd : HeaderState) (f : Flags) : Flags :=
  match hd with
  | .connectionKeepAlive => { f with connectionKeepAlive := true }
  | .connectionClose => { f with connectionClose := true }
  | .transferEncodingChunked => { f with chunked := true }
  | _ => f

theorem finishHeader_eq (q : Parser) :
    finishHeader q = { q with flags := endFlags q.headerState q.flags } := by
  obtain ⟨type, flags, state, headerState, index⟩ := q
  cases headerState <;> rfl

/-- Behind a header with a value. -/
theorem atLine_value (hs : q.state = .headerValueLws) :
    AtLine ⟨q, none, w⟩ { q with flags := endFlags q.headerState q.flags } w := by
  refine ⟨by rw [hs]; rfl, rfl, rfl, fun ch hspace htab n => ?_⟩
  have hws : ¬ (ch = code ' ' ∨ ch = 9) := not_or.mpr ⟨hspace, htab⟩
  simp only [switch, hs, headerValueLwsCase, if_neg hws]
  rw [← hs, finishHeader_eq]

/-- Behind a header without a value; the callback is made with the next byte. -/
theorem atLine_noValue (hs : q.state = .headerValueDiscardLws) :
    AtLine ⟨q, none, w⟩ q (w ++ [.headerValue []]) := by
  refine ⟨by rw [hs]; rfl, rfl, rfl, fun ch hspace htab n => ?_⟩
  have hws : ¬ (ch = code ' ' ∨ ch = 9) := not_or.mpr ⟨hspace, htab⟩
  simp only [switch, hs, headerValueDiscardLwsCase, if_neg hws, Plan.apply, if_true]
  rfl

/-- A header without a value. -/
theorem reads_noValue (hs : q.state = .headerValueDiscardWs) (hn : q.nread + 2 ≤ httpMaxHeaderSize) :
    Reads ⟨q, none, w⟩ [cr, lf]
      ⟨{ q with state := .headerValueDiscardLws, nread := q.nread + 2 }, none, w⟩ := by
  have hcr := reads_expected (q := q) (w := w) (c := cr)
    .headerValueDiscardWsAlmostDone hs rfl (by omega)
    fun q hq => by
      simp only [switch, hq, headerValueDiscardWsCase]
      rfl
  have hlf := reads_expected
    (q := { q with state := .headerValueDiscardWsAlmostDone, nread := q.nread + 1 }) (w := w)
    (c := lf) .headerValueDiscardLws rfl rfl (by dsimp only; omega)
    fun q hq => by simp [switch, hq, expectCase, strictCheck]
  exact hcr.cons hlf

/-- The header state says which word has been seen. -/
theorem seen_iff {hd : HeaderState} {i : Nat} {ps : KnownValue → Progress}
    (h : ValueTracks hd i ps) (n : KnownValue) : ps n = .seen ↔ hd = n.seen := by
  cases hd
  case general =>
    obtain rfl : ps = _ := h
    cases n <;> simp [KnownValue.seen]
  case matchingTransferEncodingChunked | matchingConnectionKeepAlive | matchingConnectionClose =>
    obtain ⟨-, rfl⟩ := h
    cases n <;> simp [KnownValue.seen, only]
  case transferEncodingChunked | connectionKeepAlive | connectionClose =>
    obtain rfl : ps = _ := h
    cases n <;> simp [KnownValue.seen, only]
  all_goals exact h.elim

theorem nameKind_cases (name : Bytes) :
    nameKind name = .connection ∨ nameKind name = .contentLength ∨
      nameKind name = .transferEncoding ∨ nameKind name = .upgrade ∨ nameKind name = .general := by
  unfold nameKind
  split_ifs <;> simp

/-- The flags a value leaves, first and last. -/
theorem endFlags_tracks {hd : HeaderState} {i : Nat} {f : Flags} {name : Bytes}
    (hlength : nameKind name ≠ .contentLength)
    (h : ValueTracks hd i
      (candidates (nameKind name) fun n => progress lower isBlank n.word value)) :
    endFlags hd (if nameKind name = .upgrade then { f with upgrade := true } else f) =
      announceFlags (nameKind name) value f := by
  -- the state at the end of the line tells which word the value is
  have hseen : ∀ n : KnownValue,
      hd = n.seen ↔ (nameKind name).mayBe n = true ∧ IsValue n value := by
    intro n
    have hiff : IsValue n value ↔ progress lower isBlank n.word value = .seen :=
      (progress_eq_seen_iff (by cases n <;> decide) value).symm
    rw [← seen_iff h n, hiff, candidates]
    by_cases hn : (nameKind name).mayBe n = true
    · simp [hn]
    · simp [hn]
  -- and the flag of that word is set
  have hend : ∀ g : Flags, endFlags hd g =
      if hd = KnownValue.keepAlive.seen then { g with connectionKeepAlive := true }
      else if hd = KnownValue.close.seen then { g with connectionClose := true }
      else if hd = KnownValue.chunked.seen then { g with chunked := true }
      else g := by
    intro g
    cases hd <;> rfl
  rw [hend]
  simp only [hseen]
  obtain hk | hk | hk | hk | hk := nameKind_cases name
  case inr.inl => exact absurd hk hlength
  all_goals simp [hk, HeaderState.mayBe, announceFlags]

/-- A value with its line end, behind a name of any kind. -/
theorem reads_value {name : Bytes} {a : Flags × Nat} (hs : q.state = .headerValueDiscardWs)
    (hk : q.headerState.kind = nameKind name) (hne : value ≠ [])
    (hfirst : ∀ c ∈ value.head?, ¬ IsWs c) (hline : ∀ c ∈ value, c ≠ cr ∧ c ≠ lf)
    (ha : announce name value (q.flags, q.contentLength) = some a)
    (hn : q.nread + value.length + 2 ≤ httpMaxHeaderSize) :
    ∃ hd i f, endFlags hd f = a.1 ∧ Reads ⟨q, none, w⟩ (value ++ [cr, lf])
      ⟨{ q with
        flags := f
        contentLength := a.2
        index := i
        headerState := hd
        state := .headerValueLws
        nread := q.nread + value.length + 2 }, none, w ++ [.headerValue value]⟩ := by
  cases value with
  | nil => exact absurd rfl hne
  | cons c cs =>
    rw [List.length_cons] at hn
    have hc := hfirst c rfl
    obtain ⟨hcr, hlf⟩ := hline c (List.mem_cons_self ..)
    have hcount : q.nread + (cs.length + 1) + 2 = q.nread + 1 + cs.length + 2 := by omega
    rw [announce, if_neg hne] at ha
    by_cases hlength : nameKind name = .contentLength
    -- a length
    · rw [if_pos hlength, readLength] at ha
      have hd : q.headerState = .contentLength := by
        rw [hlength] at hk
        cases hq : q.headerState <;> rw [hq] at hk <;> first | rfl | cases hk
      by_cases hnum : isNum c = true
      · rw [if_pos hnum] at ha
        obtain ⟨l, hl, rfl⟩ := Option.map_eq_some_iff.mp ha
        have hbyte := reads_firstChar (w := w) { q with
            contentLength := digit c
            index := 0
            state := .headerValue
            nread := q.nread + 1 } hs hc hcr hlf (by omega) (by simp [firstOfValue, hd, hnum])
        have hmore := reads_lengthChars (q := { q with
            contentLength := digit c
            index := 0
            state := .headerValue
            nread := q.nread + 1 }) (t := [c]) (w := w) rfl hd hl (by dsimp only; omega)
        have hend := reads_valueEnd (q := { q with
            contentLength := l
            index := 0
            state := .headerValue
            nread := q.nread + 1 + cs.length }) (w := w) ([c] ++ cs) rfl
          (by dsimp only; omega)
        refine ⟨q.headerState, 0, q.flags, by rw [hd]; rfl, ?_⟩
        rw [List.length_cons, hcount]
        exact (hbyte.cons hmore).append hend
      · rw [if_neg hnum] at ha
        cases ha
    -- a word, or a text that means nothing
    · rw [if_neg hlength] at ha
      obtain rfl := Option.some.inj ha
      obtain ⟨hd, hfirst', htracks⟩ := firstOfValue_tracks
        (q := { q with index := 0, state := .headerValue, nread := q.nread + 1 }) hk hlength c
      have hbyte := reads_firstChar (w := w) _ hs hc hcr hlf (by omega) hfirst'
      obtain ⟨hd', i, hmore, htracks'⟩ := reads_valueChars (q := { q with
          flags := if nameKind name = .upgrade then { q.flags with upgrade := true } else q.flags
          headerState := hd
          index := 0
          state := .headerValue
          nread := q.nread + 1 }) (t := [c]) (w := w) rfl htracks
        (fun x hx => hline x (List.mem_cons_of_mem _ hx)) (by dsimp only; omega)
      -- the candidates of the header make their steps without the other words
      have hprogress : ∀ (cs : Bytes) (ps : KnownValue → Progress),
          cs.foldl stepValues (candidates (nameKind name) ps) =
            candidates (nameKind name) (cs.foldl stepValues ps) := by
        intro cs
        induction cs with
        | nil => exact fun ps => rfl
        | cons c cs ih =>
          intro ps
          rw [List.foldl_cons, List.foldl_cons, stepValues_candidates, ih]
      have hwords : (cs.foldl stepValues fun n => .first lower n.word c) =
          fun n => progress lower isBlank n.word (c :: cs) := by
        funext n
        exact foldl_stepAll_apply _ n cs
      rw [hprogress, hwords] at htracks'
      have hend := reads_valueEnd (q := { q with
          flags := if nameKind name = .upgrade then { q.flags with upgrade := true } else q.flags
          headerState := hd'
          index := i
          state := .headerValue
          nread := q.nread + 1 + cs.length }) (w := w) ([c] ++ cs) rfl
        (by dsimp only; omega)
      refine ⟨hd', i, _, endFlags_tracks hlength htracks', ?_⟩
      rw [List.length_cons, hcount]
      exact (hbyte.cons hmore).append hend

end Values

/-! ## A header -/

/-- A header as it is sent: the name, what is skipped, the value. -/
structure HeaderLine where
  name : Bytes
  ws : Bytes
  value : Bytes
  name_ok : FieldName name
  ws_ok : ∀ c ∈ ws, IsWs c
  value_first : ∀ c ∈ value.head?, ¬ IsWs c
  value_ok : ∀ c ∈ value, c ≠ cr ∧ c ≠ lf

def HeaderLine.text (h : HeaderLine) : Bytes :=
  h.name ++ [code ':'] ++ h.ws ++ (h.value ++ [cr, lf])

/-- The callbacks for a header. -/
def HeaderLine.callbacks (h : HeaderLine) : List Callback :=
  [.headerField h.name, .headerValue h.value]

/-- What a header leaves in the record. -/
def HeaderLine.announces (h : HeaderLine) (a : Flags × Nat) : Option (Flags × Nat) :=
  announce h.name h.value a

/-- **A header** is handed over, and leaves in the record what it announces. -/
theorem reads_headerLine {r : Reader} {q : Parser} {w : List Callback} (h : HeaderLine)
    {a : Flags × Nat} (hat : AtLine r q w)
    (ha : h.announces (q.flags, q.contentLength) = some a)
    (hn : q.nread + h.text.length ≤ httpMaxHeaderSize) :
    ∃ r' i hd s, Reads r h.text r' ∧
      AtLine r' { q with
        flags := a.1
        contentLength := a.2
        index := i
        headerState := hd
        state := s
        nread := q.nread + h.text.length } (w ++ h.callbacks) := by
  have hlen : h.text.length = h.name.length + 1 + h.ws.length + (h.value.length + 2) := by
    simp only [HeaderLine.text, List.length_append, List.length_cons, List.length_nil]
  have hcount : q.nread + h.text.length =
      q.nread + h.name.length + 1 + h.ws.length + h.value.length + 2 := by omega
  obtain ⟨hd, i, hkind, hname⟩ := reads_name hat h.name_ok (by omega)
  have hws := reads_ws (q := { q with
      index := i
      headerState := hd
      state := .headerValueDiscardWs
      nread := q.nread + h.name.length + 1 }) (w := w ++ [.headerField h.name]) rfl h.ws_ok
    (by dsimp only; omega)
  -- name, colon and the blanks behind it
  have hhead := hname.append hws
  by_cases hne : h.value = []
  -- an empty value is the line end alone
  · rw [HeaderLine.announces, announce, if_pos hne] at ha
    obtain rfl := Option.some.inj ha
    have hend := reads_noValue (q := { q with
        index := i
        headerState := hd
        state := .headerValueDiscardWs
        nread := q.nread + h.name.length + 1 + h.ws.length })
      (w := w ++ [.headerField h.name]) rfl (by dsimp only; omega)
    have htext : h.text = h.name ++ [code ':'] ++ h.ws ++ [cr, lf] := by
      rw [HeaderLine.text, hne]
      rfl
    have hread := hhead.append hend
    rw [← htext] at hread
    refine ⟨_, i, hd, .headerValueDiscardLws, hread, ?_⟩
    have hat' := atLine_noValue (q := { q with
        index := i
        headerState := hd
        state := .headerValueDiscardLws
        nread := q.nread + h.name.length + 1 + h.ws.length + 2 })
      (w := w ++ [.headerField h.name]) rfl
    rw [List.append_assoc, List.singleton_append] at hat'
    rw [hcount, HeaderLine.callbacks, hne, List.length_nil]
    exact hat'
  -- any other begins at its first character
  · obtain ⟨hd', i', f, hf, hvalue⟩ := reads_value (q := { q with
        index := i
        headerState := hd
        state := .headerValueDiscardWs
        nread := q.nread + h.name.length + 1 + h.ws.length })
      (w := w ++ [.headerField h.name]) rfl hkind hne h.value_first h.value_ok ha
      (by dsimp only; omega)
    refine ⟨_, i', hd', .headerValueLws, hhead.append hvalue, ?_⟩
    have hat' := atLine_value (q := { q with
        flags := f
        contentLength := a.2
        index := i'
        headerState := hd'
        state := .headerValueLws
        nread := q.nread + h.name.length + 1 + h.ws.length + h.value.length + 2 })
      (w := w ++ [.headerField h.name] ++ [.headerValue h.value]) rfl
    rw [List.append_assoc, List.singleton_append] at hat' ⊢
    rw [hcount, HeaderLine.callbacks, ← hf]
    exact hat'

end Sails.HttpParser
