import Sails.Net.Http.Fragments

/-!
# Bodies with arbitrary bytes

`body_cb` appends its piece as a C string and counts all of its bytes.

- `bodyCb_run`: after any pieces the body holds their texts, and the size counts their bytes
- `bodyCb_exact_iff`: the body is what was sent if and only if a NUL is followed by NULs only
-/

namespace Sails.Net

open TransitionRun
open CMemory
open Sails.Base

/-! ## Texts of pieces -/

/-- What the C string functions see of the pieces. -/
def pieceTexts (pieces : List Bytes) : Bytes := (pieces.map text).flatten

theorem ne_zero_of_mem_pieceTexts {pieces : List Bytes} {c : UInt8} (h : c ∈ pieceTexts pieces) :
    c ≠ 0 := by
  obtain ⟨t, ht, hc⟩ := List.mem_flatten.mp h
  obtain ⟨piece, -, rfl⟩ := List.mem_map.mp ht
  exact ne_zero_of_mem_text hc

theorem length_pieceTexts_le (pieces : List Bytes) :
    (pieceTexts pieces).length ≤ pieces.flatten.length := by
  induction pieces with
  | nil => exact Nat.le_refl 0
  | cons piece pieces ih =>
    have hle := length_text_le piece
    simp only [pieceTexts, List.map_cons, List.flatten_cons, List.length_append] at ih ⊢
    omega

/-- Behind the first NUL there are only NULs. -/
def ZerosBehindText (bytes : Bytes) : Prop := ∀ c ∈ bytes.drop (text bytes).length, c = 0

theorem pieceTexts_of_zeros {pieces : List Bytes} (h : ∀ c ∈ pieces.flatten, c = 0) :
    pieceTexts pieces = [] := by
  rw [pieceTexts, List.flatten_eq_nil_iff]
  intro t ht
  obtain ⟨piece, hpiece, rfl⟩ := List.mem_map.mp ht
  exact text_eq_nil_of_zeros fun c hc => h c (List.mem_flatten.mpr ⟨piece, hpiece, hc⟩)

/-- If nothing but NULs follows the first NUL, the texts of the pieces are the text of the whole. -/
theorem pieceTexts_eq_text {pieces : List Bytes} (h : ZerosBehindText pieces.flatten) :
    pieceTexts pieces = text pieces.flatten := by
  induction pieces with
  | nil => rfl
  | cons piece pieces ih =>
    rw [ZerosBehindText, List.flatten_cons, text_append] at h
    rw [pieceTexts, List.map_cons, List.flatten_cons, List.flatten_cons, text_append]
    by_cases hzero : 0 ∈ piece
    -- all later pieces are NULs
    · rw [if_pos hzero] at h ⊢
      have hrest : ∀ c ∈ pieces.flatten, c = 0 := fun c hc => h c (by
        rw [List.drop_append_of_le_length (length_text_le piece)]
        exact List.mem_append_right _ hc)
      have hnil := pieceTexts_of_zeros hrest
      rw [pieceTexts] at hnil
      rw [hnil, List.append_nil]
    · rw [if_neg hzero] at h ⊢
      have hself : text piece = piece := text_eq_self fun c hc h0 => hzero (h0 ▸ hc)
      have hrest : ZerosBehindText pieces.flatten := by
        rwa [List.length_append, List.drop_append, List.drop_of_length_le (by omega),
          List.nil_append, Nat.add_sub_cancel_left] at h
      have htexts := ih hrest
      rw [pieceTexts] at htexts
      rw [hself, htexts]

/-- Filled up with NULs the texts of the pieces are the whole exactly when a NUL is followed by NULs
only. -/
theorem pieceTexts_fill_iff {pieces : List Bytes} :
    pieceTexts pieces ++ List.replicate (pieces.flatten.length - (pieceTexts pieces).length) 0 =
      pieces.flatten ↔ ZerosBehindText pieces.flatten := by
  have hne : ∀ c ∈ pieceTexts pieces, c ≠ 0 := fun c hc => ne_zero_of_mem_pieceTexts hc
  constructor
  · intro h
    have htext : text pieces.flatten = pieceTexts pieces := by
      rw [← h, text_append, if_neg fun h0 => hne 0 h0 rfl, text_eq_nil_of_zeros (by simp),
        List.append_nil]
    rw [ZerosBehindText, htext, ← h, List.drop_left]
    simp
  · intro h
    rw [pieceTexts_eq_text h]
    have hzeros : pieces.flatten.drop (text pieces.flatten).length =
        List.replicate (pieces.flatten.length - (text pieces.flatten).length) 0 := by
      rw [List.eq_replicate_iff]
      exact ⟨List.length_drop, h⟩
    rw [← hzeros]
    conv_rhs => rw [← List.take_append_drop (text pieces.flatten).length pieces.flatten]
    rw [take_length_text]

/-! ## The callback -/

/-- The next piece of the body, with the parser at it. -/
def bodyStep (f : ParserFlag) (b : HttpParser × Bytes) : Except Fault ParserFlag := bodyCb f b.1 b.2

/-- No piece received yet, as in a new message. -/
def BodyEmpty (f : ParserFlag) : Prop := f.message.body = .zero _ ∧ f.message.bodySize = 0

theorem checkBodyIsFinal_body (f : ParserFlag) (p : HttpParser) :
    (checkBodyIsFinal f p).message.body = f.message.body ∧
      (checkBodyIsFinal f p).message.bodySize = f.message.bodySize := by
  unfold checkBodyIsFinal
  split <;> exact ⟨rfl, rfl⟩

/-- One piece: its text is appended, and all its bytes are counted. -/
theorem bodyCb_text {f : ParserFlag} {t : Bytes} (hbody : f.message.body = .ofBytes _ t)
    (ht : ∀ c ∈ t, c ≠ 0) (p : HttpParser) {piece : Bytes}
    (hroom : t.length + (text piece).length < maxBodySize) :
    ∃ f', bodyCb f p piece = .ok f' ∧ f'.message.body = .ofBytes _ (t ++ text piece) ∧
      f'.message.bodySize = f.message.bodySize + piece.length := by
  have hcat : strlncat (CharArray.ofBytes maxBodySize t) piece =
      .ok (.ofBytes _ (t ++ text piece), (text piece).length + t.length) := by
    rw [strlncat_text]
    exact strlncat_ofBytes ht (fun c hc => ne_zero_of_mem_text hc) hroom
  refine ⟨_, by simp only [bodyCb, hbody, hcat, bind, Except.bind]; rfl, ?_⟩
  exact checkBodyIsFinal_body _ p

/-- **Pieces**: the body holds their texts one after the other, the size counts their bytes. -/
theorem bodyCb_run {f : ParserFlag} (hempty : BodyEmpty f) (pieces : List (HttpParser × Bytes))
    (hsize : (pieces.map Prod.snd).flatten.length < maxBodySize) :
    ∃ f', run bodyStep f pieces = .ok f' ∧
      f'.message.body = .ofBytes _ (pieceTexts (pieces.map Prod.snd)) ∧
      f'.message.bodySize = (pieces.map Prod.snd).flatten.length := by
  let R : List (HttpParser × Bytes) → ParserFlag → Prop := fun done f =>
    f.message.body = .ofBytes _ (pieceTexts (done.map Prod.snd)) ∧
      f.message.bodySize = (done.map Prod.snd).flatten.length
  have hstep : ∀ done b rest f, pieces = done ++ b :: rest → R done f →
      ∃ f', bodyStep f (id b) = .ok f' ∧ R (done ++ [b]) f' := by
    rintro done b rest f rfl ⟨hbody, hcount⟩
    have hle := length_pieceTexts_le (done.map Prod.snd)
    have htext := length_text_le b.2
    have hroom : (pieceTexts (done.map Prod.snd)).length + (text b.2).length < maxBodySize := by
      simp only [List.map_append, List.map_cons, List.flatten_append, List.flatten_cons,
        List.length_append] at hsize
      omega
    obtain ⟨f', hok, hbody', hcount'⟩ := bodyCb_text hbody
      (fun c hc => ne_zero_of_mem_pieceTexts hc) b.1 hroom
    refine ⟨f', hok, ?_, ?_⟩
    · rw [hbody']
      simp [pieceTexts]
    · rw [hcount', hcount]
      simp
  have hstart : R [] f := by
    refine ⟨?_, hempty.2⟩
    rw [hempty.1]
    exact (CharArray.ofBytes_nil _).symm
  obtain ⟨f', hrun, h⟩ := run_map hstep hstart
  rw [List.map_id] at hrun
  exact ⟨f', hrun, h⟩

/-- The body is what has been sent. -/
structure BodyExact (sent : Bytes) (m : HttpMessage) : Prop where
  bodySize : m.bodySize = sent.length
  body : m.body.bytes.take m.bodySize = sent

/-- **Binary bodies**: after any pieces of less than `MAX_BODY_SIZE` bytes the record holds what was
sent if and only if behind the first NUL there are only NULs. -/
theorem bodyCb_exact_iff {f : ParserFlag} (hempty : BodyEmpty f)
    {pieces : List (HttpParser × Bytes)}
    (hsize : (pieces.map Prod.snd).flatten.length < maxBodySize) :
    ∃ f', run bodyStep f pieces = .ok f' ∧
      (BodyExact (pieces.map Prod.snd).flatten f'.message ↔
        ZerosBehindText (pieces.map Prod.snd).flatten) := by
  obtain ⟨f', hrun, hbody, hcount⟩ := bodyCb_run hempty pieces hsize
  refine ⟨f', hrun, ?_⟩
  have hle := length_pieceTexts_le (pieces.map Prod.snd)
  -- the array is NUL behind the texts
  have htake : f'.message.body.bytes.take f'.message.bodySize =
      pieceTexts (pieces.map Prod.snd) ++ List.replicate
        ((pieces.map Prod.snd).flatten.length - (pieceTexts (pieces.map Prod.snd)).length) 0 := by
    rw [hbody, hcount, CharArray.bytes_ofBytes (hle.trans hsize.le), List.take_append,
      List.take_of_length_le hle, List.take_replicate, Nat.min_eq_left (by omega)]
  rw [← pieceTexts_fill_iff, ← htake]
  exact ⟨fun h => h.body, fun h => ⟨hcount, h⟩⟩

/-- A parser with a new message. -/
def newMessage : ParserFlag := ⟨.init, 0, []⟩

theorem bodyEmpty_newMessage : BodyEmpty newMessage := ⟨rfl, rfl⟩

/-- Of the body `a`, `b`, NUL nothing is lost. -/
theorem bodyCb_exact_iff_nul : ∃ f', run bodyStep newMessage
      [(postParser 0, [97]), (postParser 1, [98, 0])] = .ok f' ∧
    BodyExact [97, 98, 0] f'.message := by
  obtain ⟨f', hrun, hiff⟩ := @bodyCb_exact_iff newMessage bodyEmpty_newMessage
    [(postParser 0, [97]), (postParser 1, [98, 0])] (by decide)
  exact ⟨f', hrun, hiff.mpr (by unfold ZerosBehindText; decide +kernel)⟩

/-- Of the body `a`, NUL, `b` nothing is left behind the `a`. -/
theorem bodyCb_drops_behind_nul : ∃ f', run bodyStep newMessage [(postParser 1, [97, 0, 98])] =
    .ok f' ∧ f'.message.body.bytes.take f'.message.bodySize = [97, 0, 0] ∧
      ¬BodyExact [97, 0, 98] f'.message := by
  obtain ⟨f', hrun, hbody, hcount⟩ := bodyCb_run bodyEmpty_newMessage
    [(postParser 1, [97, 0, 98])] (by decide)
  have htake : f'.message.body.bytes.take f'.message.bodySize = [97, 0, 0] := by
    rw [hbody, hcount]
    decide +kernel
  refine ⟨f', hrun, htake, fun h => ?_⟩
  have hexact := htake.symm.trans h.body
  exact absurd hexact (by decide)

end Sails.Net
