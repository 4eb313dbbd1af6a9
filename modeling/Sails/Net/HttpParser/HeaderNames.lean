import Sails.Library.WordMatch
import Sails.Net.HttpParser.FirstLine

/-!
# Reading the name of a header

The parser knows five names. While it reads a name it goes down a tree of their first letters and
then along one of them; this is the same as looking for all five at once.

- `KnownName`, `nameKind`: the names, and what the parser makes of a name
- `FieldTracks`: the switch on `header_state` against the five recognisers
- `fieldHeaderState_tracks`: one character
- `reads_name`: a name with its colon
-/

namespace Sails.HttpParser

open CMemory
open WordMatch
open Sails.Net (Callback)

/-- The names the parser knows. -/
inductive KnownName where
  | connection
  | proxyConnection
  | contentLength
  | transferEncoding
  | upgrade
  deriving DecidableEq

def KnownName.word : KnownName → Bytes
  | connection => ascii "connection"
  | proxyConnection => ascii "proxy-connection"
  | contentLength => ascii "content-length"
  | transferEncoding => ascii "transfer-encoding"
  | upgrade => ascii "upgrade"

/-- The header state behind a known name. -/
def KnownName.seen : KnownName → HeaderState
  | connection | proxyConnection => .connection
  | contentLength => .contentLength
  | transferEncoding => .transferEncoding
  | upgrade => .upgrade

/-- The blank that may stand behind a name or a value. -/
def isBlank (ch : UInt8) : Bool := ch = code ' '

/-- The name is this one, in upper or lower case, with blanks behind it. -/
def IsName (n : KnownName) (name : Bytes) : Prop := IsWord token isBlank n.word name

instance (n : KnownName) (name : Bytes) : Decidable (IsName n name) :=
  inferInstanceAs (Decidable (IsWord ..))

/-- What the parser makes of a name. -/
def nameKind (name : Bytes) : HeaderState :=
  if IsName .connection name ∨ IsName .proxyConnection name then .connection
  else if IsName .contentLength name then .contentLength
  else if IsName .transferEncoding name then .transferEncoding
  else if IsName .upgrade name then .upgrade
  else .general

/-- The header states that say something to `s_header_value_start`; the others are as good as
`h_general`. -/
def HeaderState.kind : HeaderState → HeaderState
  | connection => .connection
  | contentLength => .contentLength
  | transferEncoding => .transferEncoding
  | upgrade => .upgrade
  | _ => .general

/-! ## One character -/

section OneCharacter

variable {q : Parser} {ch : UInt8} {i : Nat}

/-- `matchNext` is a step of the recogniser. -/
theorem matchNext_eq {lit : Bytes} {seen : HeaderState} (c : UInt8) (hq : q.index = i)
    (hi : i + 1 < lit.length) (hlit : lit.length ≤ 255) :
    matchNext lit seen q c =
      if lit[i + 1]? = some c then
        if i + 2 = lit.length then { q with index := i + 1, headerState := seen }
        else { q with index := i + 1 }
      else { q with index := i + 1, headerState := .general } := by
  have hmod : (i + 1) % 256 = i + 1 := Nat.mod_eq_of_lt (by omega)
  have hget : (lit ++ [0]).getD (i + 1) 0 = lit[i + 1] := by
    rw [List.getD_eq_getElem?_getD, List.getElem?_append_left hi, List.getElem?_eq_getElem hi]
    rfl
  have hlast : i + 1 = lit.length - 1 ↔ i + 2 = lit.length := by omega
  unfold matchNext
  dsimp only
  rw [hq, hmod, hget, List.getElem?_eq_getElem hi]
  simp only [Option.some.injEq, hlast]
  by_cases hc : lit[i + 1] = c
  · rw [if_pos hc, if_neg (by simp [hc]; omega)]
  · rw [if_neg hc, if_pos (.inr (Ne.symm hc))]

/-- The recognisers of the known names, one for each. -/
abbrev Progresses := KnownName → Progress

/-- A known name begins with `con`, so that two are possible. -/
def onlyCon (p : Progress) : Progresses := fun n =>
  if n = .connection ∨ n = .contentLength then p else .failed

/-- All recognisers take one more character. -/
def Progresses.step (ps : Progresses) (ch : UInt8) : Progresses :=
  stepAll token isBlank KnownName.word ps ch

/-- The header state of `s_header_field` and its index, and what the recognisers say. -/
def FieldTracks (hd : HeaderState) (i : Nat) (ps : Progresses) : Prop :=
  match hd with
  | .general => ps = fun _ => .failed
  | .c => i = 0 ∧ ps = onlyCon (.matching 0)
  | .co => i = 1 ∧ ps = onlyCon (.matching 1)
  | .con => i = 2 ∧ ps = onlyCon (.matching 2)
  | .matchingConnection => i + 1 < 10 ∧ ps = only .connection (.matching i)
  | .matchingProxyConnection => i + 1 < 16 ∧ ps = only .proxyConnection (.matching i)
  | .matchingContentLength => i + 1 < 14 ∧ ps = only .contentLength (.matching i)
  | .matchingTransferEncoding => i + 1 < 17 ∧ ps = only .transferEncoding (.matching i)
  | .matchingUpgrade => i + 1 < 7 ∧ ps = only .upgrade (.matching i)
  | .connection => ps = only .connection .seen ∨ ps = only .proxyConnection .seen
  | .contentLength => ps = only .contentLength .seen
  | .transferEncoding => ps = only .transferEncoding .seen
  | .upgrade => ps = only .upgrade .seen
  | _ => False

/-- Matching a constant is a step of its recogniser. -/
theorem matchNext_step {word : Bytes} {m : HeaderState} (seen : HeaderState) (f : UInt8 → UInt8) (hq : q.index = i)
    (hi : i + 1 < word.length) (hlen : word.length ≤ 255) (hm : q.headerState = m) (ch : UInt8) :
    ∃ hd p, matchNext word seen q (f ch) = { q with index := i + 1, headerState := hd } ∧
      (Progress.matching i).step f isBlank word ch = p ∧
      (p = .seen ∧ hd = seen ∨ p = .matching (i + 1) ∧ i + 2 < word.length ∧ hd = m ∨
        p = .failed ∧ hd = .general) := by
  rw [matchNext_eq (f ch) hq hi hlen]
  unfold Progress.step
  dsimp only
  split_ifs with hletter hlast
  · exact ⟨seen, _, rfl, rfl, .inl ⟨rfl, rfl⟩⟩
  · exact ⟨m, _, by rw [← hm], rfl, .inr (.inl ⟨rfl, by omega, rfl⟩)⟩
  · exact ⟨.general, _, rfl, rfl, .inr (.inr ⟨rfl, rfl⟩)⟩

/-- Along one of the names. -/
theorem matchNext_tracks {m : HeaderState} (n : KnownName) (hq : q.index = i)
    (hi : i + 1 < n.word.length) (hm : q.headerState = m)
    (hmatching : ∀ j, j + 1 < n.word.length → FieldTracks m j (only n (.matching j)))
    (hseen : ∀ j, FieldTracks n.seen j (only n .seen)) :
    ∃ hd, matchNext n.word n.seen q (token ch) = { q with index := i + 1, headerState := hd } ∧
      FieldTracks hd (i + 1) (Progresses.step (only n (.matching i)) ch) := by
  have hlen : n.word.length ≤ 255 := by cases n <;> decide
  obtain ⟨hd, p, heq, hp, hcases⟩ := matchNext_step n.seen token hq hi hlen hm ch
  refine ⟨hd, heq, ?_⟩
  rw [Progresses.step, stepAll_only, hp]
  obtain ⟨rfl, rfl⟩ | ⟨rfl, hlt, rfl⟩ | ⟨rfl, rfl⟩ := hcases
  · exact hseen _
  · exact hmatching _ hlt
  · exact only_failed n

/-- A letter that two names share. -/
theorem step_onlyCon_shared {i : Nat} {c : UInt8} (hconn : KnownName.connection.word[i + 1]? = some c)
    (hcont : KnownName.contentLength.word[i + 1]? = some c) (hi : i + 2 < 10) (ch : UInt8) :
    Progresses.step (onlyCon (.matching i)) ch =
      if token ch = c then onlyCon (.matching (i + 1)) else fun _ => .failed := by
  have hlen : KnownName.connection.word.length = 10 ∧ KnownName.contentLength.word.length = 14 :=
    ⟨rfl, rfl⟩
  funext n
  by_cases hc : token ch = c
  · rw [if_pos hc]
    cases n <;> simp [Progresses.step, stepAll, onlyCon, Progress.step, hconn, hcont, hc, hlen] <;> omega
  · rw [if_neg hc]
    have hc' : c ≠ token ch := Ne.symm hc
    cases n <;> simp [Progresses.step, stepAll, onlyCon, Progress.step, hconn, hcont, hc']

/-- The letter that tells them apart. -/
theorem step_onlyCon_apart (ch : UInt8) :
    Progresses.step (onlyCon (.matching 2)) ch =
      if token ch = code 'n' then only .connection (.matching 3)
      else if token ch = code 't' then only .contentLength (.matching 3)
      else fun _ => .failed := by
  funext n
  split_ifs with hn ht
  · cases n <;> simp only [Progresses.step, stepAll, onlyCon, Progress.step, hn] <;> rfl
  · cases n <;> simp only [Progresses.step, stepAll, onlyCon, Progress.step, ht] <;> rfl
  · have hconn : KnownName.connection.word[2 + 1]? ≠ some (token ch) :=
      fun h => hn (Option.some.inj h).symm
    have hcont : KnownName.contentLength.word[2 + 1]? ≠ some (token ch) :=
      fun h => ht (Option.some.inj h).symm
    cases n
    case connection => exact if_neg hconn
    case contentLength => exact if_neg hcont
    all_goals rfl

/-- Behind a name only blanks may follow. -/
theorem step_only_seen (n : KnownName) (ch : UInt8) :
    Progresses.step (only n .seen) ch = if ch = code ' ' then only n .seen else fun _ => .failed := by
  rw [Progresses.step, stepAll_only]
  by_cases hch : ch = code ' '
  · simp [Progress.step, isBlank, hch]
  · simp [Progress.step, isBlank, hch, only_failed]

/-- **One character of a name**: the switch does what the recognisers do. -/
theorem fieldHeaderState_tracks {ps : Progresses} (h : FieldTracks q.headerState q.index ps)
    (ch : UInt8) :
    ∃ hd i, fieldHeaderState q ch (token ch) = some { q with index := i, headerState := hd } ∧
      FieldTracks hd i (ps.step ch) := by
  -- a name that is matched goes on, is complete, or has failed
  have hword : ∀ m n, q.headerState = m → q.index + 1 < n.word.length →
      (∀ j, j + 1 < n.word.length → FieldTracks m j (only n (.matching j))) →
      (∀ j, FieldTracks n.seen j (only n .seen)) →
      ∃ hd i, some (matchNext n.word n.seen q (token ch)) =
        some { q with index := i, headerState := hd } ∧
        FieldTracks hd i (Progresses.step (only n (.matching q.index)) ch) := by
    intro m n hm hi hmatching hseen
    obtain ⟨hd, heq, htracks⟩ := matchNext_tracks n rfl hi hm hmatching hseen
    exact ⟨hd, _, by rw [heq], htracks⟩
  -- behind a complete name only blanks keep it
  have hblank : ∀ n : KnownName, ∃ hd, (if ch ≠ code ' ' then { q with headerState := .general } else q) =
      { q with headerState := hd } ∧
      (hd = .general ∧ Progresses.step (only n .seen) ch = (fun _ => .failed) ∨
        hd = q.headerState ∧ Progresses.step (only n .seen) ch = only n .seen) := by
    intro n
    rw [step_only_seen]
    by_cases hch : ch = code ' '
    · exact ⟨q.headerState, by simp [hch], .inr ⟨rfl, by simp [hch]⟩⟩
    · exact ⟨.general, by simp [hch], .inl ⟨rfl, by simp [hch]⟩⟩
  -- one case for each thing the parser looks for in a name
  unfold fieldHeaderState
  cases hq : q.headerState <;> rw [hq] at h
  case general => exact ⟨.general, q.index, by simp [← hq], h.symm ▸ rfl⟩
  case c =>
    obtain ⟨hi, rfl⟩ := h
    rw [step_onlyCon_shared (c := code 'o') rfl rfl (by omega), hi]
    refine ⟨_, _, rfl, ?_⟩
    split_ifs
    · exact ⟨rfl, rfl⟩
    · rfl
  case co =>
    obtain ⟨hi, rfl⟩ := h
    rw [step_onlyCon_shared (c := code 'n') rfl rfl (by omega), hi]
    refine ⟨_, _, rfl, ?_⟩
    split_ifs
    · exact ⟨rfl, rfl⟩
    · rfl
  case con =>
    obtain ⟨hi, rfl⟩ := h
    -- behind `con` the two names part
    rw [step_onlyCon_apart, hi]
    refine ⟨_, _, rfl, ?_⟩
    split_ifs
    · exact ⟨by decide, rfl⟩
    · exact ⟨by decide, rfl⟩
    · rfl
  case matchingConnection =>
    obtain ⟨hi, rfl⟩ := h
    exact hword _ .connection hq hi (fun j hj => ⟨hj, rfl⟩) fun j => .inl rfl
  case matchingProxyConnection =>
    obtain ⟨hi, rfl⟩ := h
    exact hword _ .proxyConnection hq hi (fun j hj => ⟨hj, rfl⟩) fun j => .inr rfl
  case matchingContentLength =>
    obtain ⟨hi, rfl⟩ := h
    exact hword _ .contentLength hq hi (fun j hj => ⟨hj, rfl⟩) fun j => rfl
  case matchingTransferEncoding =>
    obtain ⟨hi, rfl⟩ := h
    exact hword _ .transferEncoding hq hi (fun j hj => ⟨hj, rfl⟩) fun j => rfl
  case matchingUpgrade =>
    obtain ⟨hi, rfl⟩ := h
    exact hword _ .upgrade hq hi (fun j hj => ⟨hj, rfl⟩) fun j => rfl
  case connection =>
    obtain rfl | rfl := h
    · obtain ⟨hd, heq, ⟨rfl, hps⟩ | ⟨rfl, hps⟩⟩ := hblank .connection
      · exact ⟨.general, q.index, congrArg some heq, hps ▸ rfl⟩
      · exact ⟨q.headerState, q.index, congrArg some heq, by rw [hps, hq]; exact .inl rfl⟩
    · obtain ⟨hd, heq, ⟨rfl, hps⟩ | ⟨rfl, hps⟩⟩ := hblank .proxyConnection
      · exact ⟨.general, q.index, congrArg some heq, hps ▸ rfl⟩
      · exact ⟨q.headerState, q.index, congrArg some heq, by rw [hps, hq]; exact .inr rfl⟩
  case contentLength =>
    obtain rfl : ps = _ := h
    obtain ⟨hd, heq, ⟨rfl, hps⟩ | ⟨rfl, hps⟩⟩ := hblank .contentLength
    · exact ⟨.general, q.index, congrArg some heq, hps ▸ rfl⟩
    · exact ⟨q.headerState, q.index, congrArg some heq, by rw [hps, hq]; rfl⟩
  case transferEncoding =>
    obtain rfl : ps = _ := h
    obtain ⟨hd, heq, ⟨rfl, hps⟩ | ⟨rfl, hps⟩⟩ := hblank .transferEncoding
    · exact ⟨.general, q.index, congrArg some heq, hps ▸ rfl⟩
    · exact ⟨q.headerState, q.index, congrArg some heq, by rw [hps, hq]; rfl⟩
  case upgrade =>
    obtain rfl : ps = _ := h
    obtain ⟨hd, heq, ⟨rfl, hps⟩ | ⟨rfl, hps⟩⟩ := hblank .upgrade
    · exact ⟨.general, q.index, congrArg some heq, hps ▸ rfl⟩
    · exact ⟨q.headerState, q.index, congrArg some heq, by rw [hps, hq]; rfl⟩
  all_goals exact h.elim

end OneCharacter

/-! ## A name -/

section Names

variable {q : Parser} {r r' : Reader} {w : List Callback} {ch : UInt8} {name : Bytes}

/-- The reader is where a header line begins, or the blank line. What is left to do for the header
before is done with the next byte, so the record `q` and the callbacks `made` are those behind it. -/
structure AtLine (r : Reader) (q : Parser) (w : List Callback) : Prop where
  head : r.parser.state.parsingHeader = true
  nread : r.parser.nread = q.nread
  pending : r.pending = none
  apply : ∀ ch, ch ≠ code ' ' → ch ≠ 9 → ∀ n,
    (switch { r.parser with nread := n } ch 1).apply ch none r.made =
      (headerFieldStartCase { q with nread := n, state := .headerFieldStart } ch).apply ch none w

/-- The byte that begins a line. -/
theorem AtLine.reads (h : AtLine r q w) (hspace : ch ≠ code ' ') (htab : ch ≠ 9)
    (hn : q.nread < httpMaxHeaderSize)
    (hr' : (headerFieldStartCase { q with nread := q.nread + 1, state := .headerFieldStart } ch).apply
      ch none w = some r') : Reads r [ch] r' := by
  obtain ⟨parser, pending, made'⟩ := r
  obtain ⟨hhead, hnread, rfl, happly⟩ := h
  refine Reads.header hhead (hnread ▸ hn) fun _ => ?_
  have heq := happly ch hspace htab (q.nread + 1)
  dsimp only at heq hnread
  rw [hnread, heq, hr']

/-- Where the first line is complete. -/
theorem atLine_start (hs : q.state = .headerFieldStart) : AtLine ⟨q, none, w⟩ q w := by
  refine ⟨by rw [hs]; rfl, rfl, rfl, fun ch _ _ n => ?_⟩
  simp [switch, hs]

/-- The header state behind the first character of a name. -/
def firstState (c : UInt8) : HeaderState :=
  if c = code 'c' then .c
  else if c = code 'p' then .matchingProxyConnection
  else if c = code 't' then .matchingTransferEncoding
  else if c = code 'u' then .matchingUpgrade
  else .general

/-- The first character begins one of the names, or two, or none. -/
theorem firstState_tracks (ch : UInt8) :
    FieldTracks (firstState (token ch)) 0 (fun n => .first token n.word ch) := by
  unfold firstState
  -- the first characters of the names differ, `connection` and `content-length` apart
  split_ifs with hc hp ht hu
  · refine ⟨rfl, ?_⟩
    funext n
    cases n <;> simp only [Progress.first, hc] <;> rfl
  · refine ⟨by decide, ?_⟩
    funext n
    cases n <;> simp only [Progress.first, hp] <;> rfl
  · refine ⟨by decide, ?_⟩
    funext n
    cases n <;> simp only [Progress.first, ht] <;> rfl
  · refine ⟨by decide, ?_⟩
    funext n
    cases n <;> simp only [Progress.first, hu] <;> rfl
  · funext n
    have hne : n.word[0]? ≠ some (token ch) := by
      intro h
      cases n
      case connection | contentLength => exact hc (Option.some.inj h).symm
      case proxyConnection => exact hp (Option.some.inj h).symm
      case transferEncoding => exact ht (Option.some.inj h).symm
      case upgrade => exact hu (Option.some.inj h).symm
    exact if_neg hne

theorem ne_lineEnd_of_token (h : token ch ≠ 0) : ch ≠ cr ∧ ch ≠ lf ∧ ch ≠ 9 ∧ ch ≠ code ':' := by
  refine ⟨?_, ?_, ?_, ?_⟩ <;> (rintro rfl; revert h; decide)

theorem headerFieldStart_apply (h : token ch ≠ 0) :
    (headerFieldStartCase q ch).apply ch none w =
      some ⟨{ q with index := 0, state := .headerField, headerState := firstState (token ch) },
        some (.headerField, [ch]), w⟩ := by
  obtain ⟨hcr, hlf, -, -⟩ := ne_lineEnd_of_token h
  simp only [headerFieldStartCase, if_neg hcr, if_neg hlf, if_neg h, Plan.apply]
  rfl

/-- Further characters of a name. -/
theorem reads_nameChars {cs t : Bytes} {ps : Progresses} (hs : q.state = .headerField)
    (hps : FieldTracks q.headerState q.index ps) (hcs : ∀ c ∈ cs, token c ≠ 0)
    (hn : q.nread + cs.length ≤ httpMaxHeaderSize) :
    ∃ hd i, Reads ⟨q, some (.headerField, t), w⟩ cs
      ⟨{ q with index := i, headerState := hd, nread := q.nread + cs.length },
        some (.headerField, t ++ cs), w⟩ ∧
      FieldTracks hd i (cs.foldl Progresses.step ps) := by
  -- by induction on the characters: each goes to the mark, and the names make a step
  induction cs generalizing q t ps with
  | nil =>
    refine ⟨q.headerState, q.index, ?_, hps⟩
    rw [List.append_nil]
    exact Reads.nil _
  | cons c cs ih =>
    rw [List.length_cons] at hn ⊢
    have hc := hcs c (List.mem_cons_self ..)
    obtain ⟨hd, i, hstate, htracks⟩ := fieldHeaderState_tracks
      (q := { q with nread := q.nread + 1 }) hps c
    have hbyte : Reads ⟨q, some (.headerField, t), w⟩ [c]
        ⟨{ q with index := i, headerState := hd, nread := q.nread + 1 },
          some (.headerField, t ++ [c]), w⟩ := by
      refine Reads.header (by rw [hs]; rfl) (by omega) fun _ => ?_
      simp only [switch, hs, headerFieldCase, ne_eq, hc, not_false_eq_true, if_true]
      rw [← hs, hstate]
      rfl
    obtain ⟨hd', i', hmore, htracks'⟩ := ih
      (q := { q with index := i, headerState := hd, nread := q.nread + 1 }) (t := t ++ [c]) hs htracks
      (fun x hx => hcs x (List.mem_cons_of_mem _ hx)) (by dsimp only; omega)
    refine ⟨hd', i', ?_, htracks'⟩
    rw [show q.nread + (cs.length + 1) = q.nread + 1 + cs.length by omega]
    rw [List.append_assoc, List.singleton_append] at hmore
    exact hbyte.cons hmore

/-- The recognisers behind a name say which name it is. -/
theorem kind_eq_nameKind {hd : HeaderState} {i : Nat}
    (h : FieldTracks hd i (fun n => progress token isBlank n.word name)) :
    hd.kind = nameKind name := by
  -- a name is complete when its word has been seen
  have hseen : ∀ n : KnownName,
      IsName n name ↔ progress token isBlank n.word name = .seen := fun n =>
    (progress_eq_seen_iff (by cases n <;> decide) name).symm
  have hnot : ∀ {ps : Progresses}, (fun n => progress token isBlank n.word name) = ps →
      ∀ n, IsName n name ↔ ps n = .seen := by
    rintro _ rfl n
    exact hseen n
  unfold nameKind
  cases hd
  case connection =>
    obtain h | h := h <;> simp [hnot h, only, HeaderState.kind]
  case general => simp [hnot h, HeaderState.kind]
  case c | co | con =>
    simp [hnot h.2, onlyCon, HeaderState.kind]
  case matchingConnection | matchingProxyConnection | matchingContentLength
    | matchingTransferEncoding | matchingUpgrade =>
    simp [hnot h.2, only, HeaderState.kind]
  case contentLength | transferEncoding | upgrade =>
    simp [hnot h, only, HeaderState.kind]
  all_goals exact h.elim

/-- A name, as a header may have it: it does not begin with a blank. -/
def FieldName (name : Bytes) : Prop :=
  name ≠ [] ∧ name.head? ≠ some (code ' ') ∧ ∀ c ∈ name, token c ≠ 0

instance (name : Bytes) : Decidable (FieldName name) :=
  haveI : Decidable (∀ c ∈ name, token c ≠ 0) := List.decidableBAll (fun c => token c ≠ 0) name
  inferInstanceAs (Decidable (_ ∧ _ ∧ _))

/-- **A name with its colon** is handed over, and its kind is known. -/
theorem reads_name (h : AtLine r q w) (hname : FieldName name)
    (hn : q.nread + name.length < httpMaxHeaderSize) :
    ∃ hd i, hd.kind = nameKind name ∧ Reads r (name ++ [code ':'])
      ⟨{ q with
        index := i
        headerState := hd
        state := .headerValueDiscardWs
        nread := q.nread + name.length + 1 }, none, w ++ [.headerField name]⟩ := by
  obtain ⟨hne, hspace, htokens⟩ := hname
  cases name with
  | nil => exact absurd rfl hne
  | cons c cs =>
    rw [List.length_cons] at hn
    have hc := htokens c (List.mem_cons_self ..)
    have hc' : c ≠ code ' ' := fun heq => hspace (by rw [heq]; rfl)
    have hfirst := h.reads hc' (ne_lineEnd_of_token hc).2.2.1 (by omega) (headerFieldStart_apply hc)
    obtain ⟨hd, i, hmore, htracks⟩ := reads_nameChars (q := { q with
        index := 0
        state := .headerField
        headerState := firstState (token c)
        nread := q.nread + 1 }) (t := [c]) (w := w) rfl (firstState_tracks c)
      (fun x hx => htokens x (List.mem_cons_of_mem _ hx)) (by dsimp only; omega)
    -- the names have made a step for each character
    have hprogress : (cs.foldl Progresses.step fun n => .first token n.word c) =
        fun n => progress token isBlank n.word (c :: cs) := by
      funext n
      exact foldl_stepAll_apply _ n cs
    rw [hprogress] at htracks
    have hcolon : Reads
        ⟨{ q with
          index := i
          headerState := hd
          state := .headerField
          nread := q.nread + 1 + cs.length }, some (.headerField, [c] ++ cs), w⟩ [code ':']
        ⟨{ q with
          index := i
          headerState := hd
          state := .headerValueDiscardWs
          nread := q.nread + 1 + cs.length + 1 }, none, w ++ [.headerField ([c] ++ cs)]⟩ := by
      refine Reads.header rfl (by dsimp only; omega) fun _ => ?_
      have hzero : token (code ':') = 0 := by decide
      simp only [switch, headerFieldCase, hzero]
      rfl
    refine ⟨hd, i, kind_eq_nameKind htracks, ?_⟩
    rw [List.length_cons, show q.nread + (cs.length + 1) + 1 = q.nread + 1 + cs.length + 1 by omega]
    exact (hfirst.cons hmore).append hcolon

end Names

end Sails.HttpParser
