import Sails.Net.HttpParser.Requests

/-!
# Reading a chunked body

Chunks behind their sizes in hexadecimal digits, a size of 0, and headers again behind it.

- `ChunkLine`, `reads_chunkLine`: a size, and what is skipped behind it
- `reads_chunkData`, `reads_chunks`: chunks
- `reads_trailerEnd`: the blank line behind the last headers
- `ChunkedRequest`, `reads_chunkedRequest`: the whole of it
- `feed_sent`: requests of both kinds on a connection, in any segments
-/

namespace Sails.HttpParser

open CMemory
open Coalesce
open Sails.Net (Callback)

/-! ## The size of a chunk -/

/-- The number that hexadecimal digits stand for, behind the number `v`. -/
def hexFrom (v : Nat) (ds : Bytes) : Nat := ds.foldl (fun v d => v * 16 + (unhex d).getD 0) v

theorem le_hexFrom (v : Nat) (ds : Bytes) : v ≤ hexFrom v ds := by
  induction ds generalizing v with
  | nil => exact le_refl v
  | cons d ds ih =>
    have hle := ih (v * 16 + (unhex d).getD 0)
    rw [hexFrom, List.foldl_cons]
    exact le_trans (by omega) hle

/-- The line in front of a chunk: its size, and what is skipped behind it. -/
structure ChunkLine where
  digits : Bytes
  ext : Bytes
  digits_hex : ∀ d ∈ digits, (unhex d).isSome = true
  digits_ne_nil : digits ≠ []
  ext_first : ∀ c ∈ ext.head?, c = code ';' ∨ c = code ' '
  ext_line : ∀ c ∈ ext, c ≠ cr
  size_le : hexFrom 0 digits ≤ ullongMax - 16
  /-- the line is no longer than a head may be -/
  length_le : digits.length + ext.length + 2 ≤ httpMaxHeaderSize

def ChunkLine.text (l : ChunkLine) : Bytes := l.digits ++ l.ext ++ [cr, lf]

def ChunkLine.size (l : ChunkLine) : Nat := hexFrom 0 l.digits

section Line

variable {q : Parser} {w : List Callback}

/-- Further digits of a size. -/
theorem reads_sizeDigits {ds : Bytes} (hs : q.state = .chunkSize) (hchunked : q.flags.chunked = true)
    (hhex : ∀ d ∈ ds, (unhex d).isSome = true) (hle : hexFrom q.contentLength ds ≤ ullongMax - 16)
    (hn : q.nread + ds.length ≤ httpMaxHeaderSize) :
    Reads ⟨q, none, w⟩ ds
      ⟨{ q with contentLength := hexFrom q.contentLength ds, nread := q.nread + ds.length }, none,
        w⟩ := by
  -- by induction on the digits: the length read so far is below the bound the code checks
  induction ds generalizing q with
  | nil => exact Reads.nil _
  | cons d ds ih =>
    rw [List.length_cons] at hn ⊢
    obtain ⟨v, hv⟩ := Option.isSome_iff_exists.mp (hhex d (List.mem_cons_self ..))
    have hcr : d ≠ cr := by rintro rfl; revert hv; decide +revert
    rw [hexFrom, List.foldl_cons, hv, Option.getD_some] at hle ⊢
    have hfirst : q.contentLength * 16 + v ≤ ullongMax - 16 := le_trans (le_hexFrom _ ds) hle
    have hroom : ¬ (ullongMax - 16) / 16 < q.contentLength := by omega
    have hbyte : Reads ⟨q, none, w⟩ [d]
        ⟨{ q with contentLength := q.contentLength * 16 + v, nread := q.nread + 1 }, none, w⟩ := by
      refine Reads.header (by rw [hs]; rfl) (by omega) fun _ => ?_
      simp only [switch, hs, chunkSizeCase, assert, hchunked, if_true, if_neg hcr, hv, if_neg hroom]
      rfl
    have hmore := ih (q := { q with
      contentLength := q.contentLength * 16 + v
      nread := q.nread + 1 }) hs hchunked (fun x hx => hhex x (List.mem_cons_of_mem _ hx)) hle
      (by dsimp only; omega)
    rw [show q.nread + (ds.length + 1) = q.nread + 1 + ds.length by omega]
    exact hbyte.cons hmore

/-- What is skipped behind a size. -/
theorem reads_extension {ext : Bytes} (hs : q.state = .chunkParameters)
    (hchunked : q.flags.chunked = true) (hext : ∀ c ∈ ext, c ≠ cr)
    (hn : q.nread + ext.length ≤ httpMaxHeaderSize) :
    Reads ⟨q, none, w⟩ ext ⟨{ q with nread := q.nread + ext.length }, none, w⟩ := by
  induction ext generalizing q with
  | nil => exact Reads.nil _
  | cons c ext ih =>
    rw [List.length_cons] at hn ⊢
    have hc := hext c (List.mem_cons_self ..)
    have hbyte : Reads ⟨q, none, w⟩ [c] ⟨{ q with nread := q.nread + 1 }, none, w⟩ := by
      refine Reads.header (by rw [hs]; rfl) (by omega) fun _ => ?_
      simp only [switch, hs, chunkParametersCase, assert, hchunked, if_true, if_neg hc]
      rfl
    have hmore := ih (q := { q with nread := q.nread + 1 }) hs hchunked
      (fun x hx => hext x (List.mem_cons_of_mem _ hx)) (by dsimp only; omega)
    rw [show q.nread + (ext.length + 1) = q.nread + 1 + ext.length by omega]
    exact hbyte.cons hmore

/-- The record behind the line of a chunk; a size of 0 begins the headers behind the chunks. -/
def ChunkLine.record (l : ChunkLine) (q : Parser) : Parser :=
  if l.size = 0 then
    { q with flags.trailing := true, contentLength := 0, nread := 0, state := .headerFieldStart }
  else { q with contentLength := l.size, nread := 0, state := .chunkData }

/-- The line end behind a size. -/
theorem reads_sizeEnd {l : ChunkLine} (hs : q.state = .chunkSize ∨ q.state = .chunkParameters)
    (hchunked : q.flags.chunked = true) (hl : q.contentLength = l.size)
    (hn : q.nread + 2 ≤ httpMaxHeaderSize) :
    Reads ⟨q, none, w⟩ [cr, lf] ⟨l.record q, none, w⟩ := by
  have hcr : Reads ⟨q, none, w⟩ [cr]
      ⟨{ q with nread := q.nread + 1, state := .chunkSizeAlmostDone }, none, w⟩ := by
    refine Reads.header (by obtain hs | hs := hs <;> rw [hs] <;> rfl) (by omega) fun _ => ?_
    obtain hs | hs := hs
    · simp only [switch, hs, chunkSizeCase, assert, hchunked, if_true]
      rfl
    · simp only [switch, hs, chunkParametersCase, assert, hchunked, if_true]
      rfl
  have hlf : Reads ⟨{ q with nread := q.nread + 1, state := .chunkSizeAlmostDone }, none, w⟩ [lf]
      ⟨l.record q, none, w⟩ := by
    refine Reads.header rfl (by dsimp only; omega) fun _ => ?_
    simp only [switch, chunkSizeAlmostDoneCase, assert, hchunked, if_true, strictCheck, ne_eq,
      not_true_eq_false, decide_false, Bool.false_eq_true, if_false, hl, ChunkLine.record]
    -- a size of zero is that of the last chunk
    by_cases hzero : l.size = 0
    · rw [if_pos hzero, if_pos hzero]
      simp [Plan.apply, hzero]
    · rw [if_neg hzero, if_neg hzero]
      rfl
  exact hcr.cons hlf

/-- **The line of a chunk.** -/
theorem reads_chunkLine (l : ChunkLine) (hs : q.state = .chunkSizeStart) (hnread : q.nread = 0)
    (hchunked : q.flags.chunked = true) :
    Reads ⟨q, none, w⟩ l.text ⟨l.record q, none, w⟩ := by
  obtain ⟨d, ds, hdigits⟩ := List.exists_cons_of_ne_nil l.digits_ne_nil
  have hhex := l.digits_hex
  have hsize := l.size_le
  have hlen := l.length_le
  rw [hdigits] at hhex hsize hlen
  rw [List.length_cons] at hlen
  obtain ⟨v, hv⟩ := Option.isSome_iff_exists.mp (hhex d (List.mem_cons_self ..))
  -- the first digit sets the length, the others go on from it
  have hvalue : hexFrom 0 (d :: ds) = hexFrom v ds := by
    rw [hexFrom, List.foldl_cons, hv, Nat.zero_mul, Nat.zero_add, Option.getD_some, hexFrom]
  rw [hvalue] at hsize
  have hfirst : Reads ⟨q, none, w⟩ [d]
      ⟨{ q with contentLength := v, state := .chunkSize, nread := 1 }, none, w⟩ := by
    refine Reads.header (by rw [hs]; rfl) (by rw [hnread]; decide) fun _ => ?_
    simp only [switch, hs, chunkSizeStartCase, assert, hnread, hchunked, if_true, hv]
    rfl
  have hothers := reads_sizeDigits (q := { q with
      contentLength := v
      state := .chunkSize
      nread := 1 }) (w := w) rfl hchunked (fun x hx => hhex x (List.mem_cons_of_mem _ hx)) hsize
    (by dsimp only; omega)
  have hread := hfirst.cons hothers
  have hl : l.size = hexFrom v ds := by rw [ChunkLine.size, hdigits, hvalue]
  cases hext : l.ext with
  | nil =>
    -- without an extension the line ends behind the digits
    have hend := reads_sizeEnd (l := l) (q := { q with
        contentLength := hexFrom v ds
        state := .chunkSize
        nread := 1 + ds.length }) (w := w) (.inl rfl) hchunked hl.symm (by dsimp only; omega)
    have htext : l.text = d :: ds ++ [cr, lf] := by rw [ChunkLine.text, hext, hdigits, List.append_nil]
    rw [htext]
    exact hread.append hend
  | cons c cs =>
    have hc := l.ext_first c (by rw [hext]; rfl)
    have hline := l.ext_line
    rw [hext] at hline hlen
    rw [List.length_cons] at hlen
    have hcr := hline c (List.mem_cons_self ..)
    have hnone : unhex c = none := by obtain rfl | rfl := hc <;> decide
    -- an extension begins with a blank or a semicolon, and runs up to the line end
    have hbyte : Reads ⟨{ q with
          contentLength := hexFrom v ds
          state := .chunkSize
          nread := 1 + ds.length }, none, w⟩ [c]
        ⟨{ q with
          contentLength := hexFrom v ds
          state := .chunkParameters
          nread := 1 + ds.length + 1 }, none, w⟩ := by
      refine Reads.header rfl (by dsimp only; omega) fun _ => ?_
      simp only [switch, chunkSizeCase, assert, hchunked, if_true, if_neg hcr, hnone, if_pos hc]
      rfl
    have hmore := reads_extension (q := { q with
        contentLength := hexFrom v ds
        state := .chunkParameters
        nread := 1 + ds.length + 1 }) (w := w) rfl hchunked
      (fun x hx => hline x (List.mem_cons_of_mem _ hx)) (by dsimp only; omega)
    have hend := reads_sizeEnd (l := l) (q := { q with
        contentLength := hexFrom v ds
        state := .chunkParameters
        nread := 1 + ds.length + 1 + cs.length }) (w := w) (.inr rfl) hchunked hl.symm
      (by dsimp only; omega)
    have htext : l.text = d :: ds ++ (c :: cs ++ [cr, lf]) := by
      rw [ChunkLine.text, hext, hdigits, List.append_assoc]
    rw [htext]
    exact hread.append ((hbyte.cons hmore).append hend)

end Line

/-! ## Chunks -/

/-- A chunk. -/
structure Chunk where
  line : ChunkLine
  data : Bytes
  data_ne_nil : data ≠ []
  length_eq : line.size = data.length

def Chunk.text (c : Chunk) : Bytes := c.line.text ++ c.data ++ [cr, lf]

section Chunks

variable {q : Parser} {w : List Callback}

/-- A byte of a chunk. -/
theorem chunkByte_apply {pending : Option (DataKind × Bytes)} {t : Bytes} {ch : UInt8}
    (ht : bodySoFar pending = some t) (hs : q.state = .chunkData) (hchunked : q.flags.chunked = true)
    {l : Nat} (hl : q.contentLength = l + 1) (hmax : q.contentLength ≠ ullongMax) :
    (switch q ch 1).apply ch pending w =
      some ⟨{ q with
        contentLength := l
        state := if l = 0 then .chunkDataAlmostDone else .chunkData },
        some (.body, t ++ [ch]), w⟩ := by
  have hmin : min q.contentLength 1 = 1 := by omega
  have hrest : q.contentLength - 1 = l := by omega
  have hlength : q.contentLength ≠ 0 := by omega
  simp only [switch, hs, chunkDataCase, assert, hchunked, hlength, hmax, hmin, hrest, ne_eq,
    not_false_eq_true, and_self, decide_true, if_true]
  -- whether the chunk is complete
  by_cases h0 : l = 0
  · rw [if_pos h0, if_pos h0]
    unfold bodySoFar at ht
    split at ht
    · obtain rfl := Option.some.inj ht
      rfl
    · obtain rfl := Option.some.inj ht
      rfl
    · cases ht
  · rw [if_neg h0, if_neg h0, ← hs]
    unfold bodySoFar at ht
    split at ht
    · obtain rfl := Option.some.inj ht
      rfl
    · obtain rfl := Option.some.inj ht
      rfl
    · cases ht

/-- The bytes of a chunk. -/
theorem reads_chunkData {pending : Option (DataKind × Bytes)} {t data : Bytes}
    (ht : bodySoFar pending = some t) (hs : q.state = .chunkData) (hchunked : q.flags.chunked = true)
    (hl : q.contentLength = data.length) (hne : data ≠ []) (hmax : q.contentLength < ullongMax) :
    Reads ⟨q, pending, w⟩ data
      ⟨{ q with contentLength := 0, state := .chunkDataAlmostDone }, some (.body, t ++ data), w⟩ := by
  induction data generalizing q pending t with
  | nil => exact absurd rfl hne
  | cons ch data ih =>
    rw [List.length_cons] at hl
    have hbyte : Reads ⟨q, pending, w⟩ [ch] _ := Reads.body (by rw [hs]; rfl) fun _ =>
      chunkByte_apply ht hs hchunked hl (by omega)
    by_cases hlast : data = []
    · subst hlast
      exact hbyte
    · have hpos := List.length_pos_iff.mpr hlast
      rw [if_neg (by omega)] at hbyte
      have hmore := ih (q := { q with contentLength := data.length, state := .chunkData })
        (show bodySoFar (some (.body, t ++ [ch])) = some (t ++ [ch]) from rfl) rfl hchunked rfl hlast
        (by dsimp only; omega)
      rw [List.append_assoc, List.singleton_append] at hmore
      exact hbyte.cons hmore

/-- **A chunk** is handed over. -/
theorem reads_chunk (c : Chunk) (hs : q.state = .chunkSizeStart) (hnread : q.nread = 0)
    (hchunked : q.flags.chunked = true) (hrequest : q.type = .request) :
    Reads ⟨q, none, w⟩ c.text
      ⟨{ q with contentLength := 0 }, none, w ++ [.body (q.tells false) c.data]⟩ := by
  have hpos := List.length_pos_iff.mpr c.data_ne_nil
  have hsize := c.length_eq
  have hmax : c.line.size ≤ ullongMax - 16 := c.line.size_le
  have hbig : 16 < ullongMax := by decide
  -- the size, the data and the line end behind it
  have hline := reads_chunkLine (w := w) c.line hs hnread hchunked
  rw [ChunkLine.record, if_neg (by omega)] at hline
  have hdata := reads_chunkData (q := { q with
      contentLength := c.line.size
      nread := 0
      state := .chunkData }) (w := w) (show bodySoFar none = some [] from rfl) rfl hchunked hsize
    c.data_ne_nil (by dsimp only; omega)
  have hview : Parser.view { q with contentLength := 0, nread := 0, state := .chunkDataDone } =
      q.tells false :=
    view_request (q := { q with contentLength := 0, nread := 0, state := .chunkDataDone }) hrequest
  have hcr : Reads
      ⟨{ q with contentLength := 0, nread := 0, state := .chunkDataAlmostDone },
        some (.body, [] ++ c.data), w⟩ [cr]
      ⟨{ q with contentLength := 0, nread := 0, state := .chunkDataDone }, none,
        w ++ [.body (q.tells false) c.data]⟩ := by
    refine Reads.body rfl fun _ => ?_
    rw [← hview]
    simp only [switch, chunkDataAlmostDoneCase, assert, hchunked, if_true, strictCheck, ne_eq,
      not_true_eq_false, decide_true, decide_false, Bool.false_eq_true, if_false]
    rfl
  have hlf : Reads
      ⟨{ q with contentLength := 0, nread := 0, state := .chunkDataDone }, none,
        w ++ [.body (q.tells false) c.data]⟩ [lf]
      ⟨{ q with contentLength := 0, nread := 0, state := .chunkSizeStart }, none,
        w ++ [.body (q.tells false) c.data]⟩ := by
    refine Reads.body rfl fun _ => ?_
    simp only [switch, chunkDataDoneCase, assert, hchunked, if_true, strictCheck, ne_eq,
      not_true_eq_false, decide_false, Bool.false_eq_true, if_false]
    rfl
  -- the parser is where it was before the chunk
  have hback : ({ q with contentLength := 0, nread := 0, state := .chunkSizeStart } : Parser) =
      { q with contentLength := 0 } := by rw [← hs, ← hnread]
  rw [hback] at hlf
  exact (hline.append hdata).append (hcr.cons hlf)

/-- Chunks, one after the other. -/
theorem reads_chunks (cs : List Chunk) (hs : q.state = .chunkSizeStart) (hnread : q.nread = 0)
    (hchunked : q.flags.chunked = true) (hrequest : q.type = .request) :
    ∃ l, Reads ⟨q, none, w⟩ (cs.flatMap Chunk.text)
      ⟨{ q with contentLength := l }, none, w ++ cs.map fun c => .body (q.tells false) c.data⟩ := by
  induction cs generalizing q w with
  | nil =>
    refine ⟨q.contentLength, ?_⟩
    rw [List.map_nil, List.append_nil]
    exact Reads.nil _
  | cons c cs ih =>
    have hchunk := reads_chunk (w := w) c hs hnread hchunked hrequest
    obtain ⟨l, hmore⟩ := ih (q := { q with contentLength := 0 })
      (w := w ++ [.body (q.tells false) c.data]) hs hnread hchunked hrequest
    refine ⟨l, ?_⟩
    rw [List.append_assoc] at hmore
    exact hchunk.append hmore

/-- The headers are complete, and chunks follow. -/
theorem headersDone_chunked (h : HeadersEnd q) (hup : q.complete.upgrade = false)
    (hchunked : q.flags.chunked = true) :
    (headersDoneCase q.complete lf).apply lf none w =
      some ⟨{ q.complete with state := .chunkSizeStart }, none, w⟩ := by
  have hskip : q.complete.flags.skipbody = false := h.no_skipbody
  have hchunked' : q.complete.flags.chunked = true := hchunked
  simp only [headersDoneCase, strictCheck, ne_eq, not_true_eq_false, decide_false,
    Bool.false_eq_true, if_false, hup, hskip, hchunked', if_true]
  rfl

/-- **The blank line behind the last headers** completes the request. The count of the bytes is not
reset. -/
theorem reads_trailerEnd {r : Reader} (hat : AtLine r q w) (htrailing : q.flags.trailing = true)
    (hrequest : q.type = .request) (hn : q.nread + 2 ≤ httpMaxHeaderSize) :
    Reads r [cr, lf] ⟨{ q with nread := q.nread + 2, state := q.after }, none,
      w ++ [.messageComplete (q.tells false)]⟩ := by
  have hcr : Reads r [cr] ⟨{ q with nread := q.nread + 1, state := .headersAlmostDone }, none, w⟩ :=
    hat.reads (by decide) (by decide) (by omega) rfl
  have hlf : Reads ⟨{ q with nread := q.nread + 1, state := .headersAlmostDone }, none, w⟩ [lf]
      ⟨{ q with nread := q.nread + 2, state := q.after }, none,
        w ++ [.messageComplete (q.tells false)]⟩ := by
    refine Reads.header rfl (by dsimp only; omega) fun _ => ?_
    simp only [switch, headersAlmostDoneCase, strictCheck, ne_eq, not_true_eq_false, decide_false,
      Bool.false_eq_true, if_false, htrailing, if_true]
    exact completeMessage_apply (q := { q with nread := q.nread + 2, state := .headersAlmostDone })
      hrequest (.inl rfl)
  exact hcr.cons hlf

end Chunks

/-! ## A request -/

/-- A request whose body is sent in chunks. -/
structure ChunkedRequest where
  line : RequestLine
  headers : List HeaderLine
  chunks : List Chunk
  /-- the line with the size 0 -/
  last : ChunkLine
  /-- the headers behind the chunks -/
  trailers : List HeaderLine
  /-- the flags in front of the chunks, and behind the last headers -/
  flags : Flags
  endFlags : Flags
  contentLength : Nat
  endLength : Nat
  announces : announced headers (.zero, ullongMax) = some (flags, contentLength)
  framed : flags.chunked = true ∧ flags.upgrade = false ∧ line.method ≠ .connect
  last_size : last.size = 0
  trailers_announce :
    announced trailers ({ flags with trailing := true }, 0) = some (endFlags, endLength)
  trailers_le : (headersText trailers).length + 2 ≤ httpMaxHeaderSize

namespace ChunkedRequest

variable (r : ChunkedRequest)

/-- The part in front of the chunks, whose size is limited. -/
def head : Bytes := r.line.text ++ headersText r.headers ++ [cr, lf]

/-- The part behind the last chunk. -/
def trailer : Bytes := headersText r.trailers ++ [cr, lf]

def text : Bytes := r.head ++ r.chunks.flatMap Chunk.text ++ r.last.text ++ r.trailer

/-- The body, put together from its chunks. -/
def body : Bytes := r.chunks.flatMap Chunk.data

/-- The connection stays open behind the request. -/
def keepsAlive : Bool :=
  keepAlive (digitsFrom 0 r.line.version.major) (digitsFrom 0 r.line.version.minor) r.endFlags

/-- What the callbacks are told; no piece of a body in chunks is ever said to be the last. -/
def tells (statusCode : Nat) (f : Flags) : Net.HttpParser where
  method := r.line.method.num
  statusCode := statusCode
  httpMajor := digitsFrom 0 r.line.version.major
  httpMinor := digitsFrom 0 r.line.version.minor
  shouldKeepAlive :=
    if keepAlive (digitsFrom 0 r.line.version.major) (digitsFrom 0 r.line.version.minor) f then 1
    else 0
  bodyIsFinal := 0

/-- The callbacks for the request, with those for its body. -/
def callbacksWith (statusCode : Nat) (body : List Callback) : List Callback :=
  [.messageBegin, .requestUrl r.line.url] ++ r.headers.flatMap HeaderLine.callbacks ++
    [.headersComplete (r.tells statusCode r.flags)] ++ body ++
    r.trailers.flatMap HeaderLine.callbacks ++ [.messageComplete (r.tells statusCode r.endFlags)]

/-- The callbacks that are made: one for each chunk. -/
def madeCallbacks (statusCode : Nat) : List Callback :=
  r.callbacksWith statusCode (r.chunks.map fun c => .body (r.tells statusCode r.flags) c.data)

/-- The callbacks with the chunks put together. -/
def callbacks (statusCode : Nat) : List Callback :=
  r.callbacksWith statusCode
    (if r.chunks = [] then [] else [.body (r.tells statusCode r.flags) r.body])

end ChunkedRequest

/-- **A request in chunks** is read as it was written. -/
theorem reads_chunkedRequest {q : Parser} {w : List Callback} (r : ChunkedRequest) (hq : Idle q)
    (hn : q.nread + r.head.length ≤ httpMaxHeaderSize) :
    ∃ q', Reads ⟨q, none, w⟩ r.text ⟨q', none, w ++ r.madeCallbacks q.statusCode⟩ ∧
      q'.type = .request ∧ q'.statusCode = q.statusCode ∧ q'.nread = r.trailer.length ∧
      q'.state = if r.keepsAlive then .startReq else .dead := by
  have hlen : r.head.length = r.line.text.length + (headersText r.headers).length + 2 := by
    simp only [ChunkedRequest.head, List.length_append, List.length_cons, List.length_nil]
  have hline := reads_requestLine (w := w) r.line hq.state (by omega)
  have hcount : (r.line.record q).nread = q.nread + r.line.text.length := rfl
  obtain ⟨r₁, i, hd, s, hheaders, hat⟩ := reads_headers (q := r.line.record q) r.headers
    (atLine_start (w := w ++ [.messageBegin, .requestUrl r.line.url]) rfl) r.announces
    (by omega)
  let q₁ : Parser := { r.line.record q with
    flags := r.flags
    contentLength := r.contentLength
    index := i
    headerState := hd
    state := s
    nread := (r.line.record q).nread + (headersText r.headers).length }
  have hframe := announced_frame r.announces
  have hend : HeadersEnd q₁ := ⟨hq.request, hframe.1, hframe.2⟩
  obtain ⟨hchunked, hnotUp, hconnect⟩ := r.framed
  have hup : q₁.complete.upgrade = false := by
    show (r.flags.upgrade || decide (r.line.method = .connect)) = false
    simp [hnotUp, hconnect]
  have hblank := reads_blank hat hend (by dsimp only; omega)
    (headersDone_chunked hend hup hchunked)
  -- the chunks, and the line with the size 0
  let q₂ : Parser := { q₁.complete with state := .chunkSizeStart }
  obtain ⟨l, hchunks⟩ := reads_chunks (q := q₂) (w := w ++ [.messageBegin,
      .requestUrl r.line.url] ++ r.headers.flatMap HeaderLine.callbacks ++
      [.headersComplete (q₁.tells false)]) r.chunks rfl rfl hchunked hq.request
  have hlast := reads_chunkLine (q := { q₂ with contentLength := l }) (w := w ++ [.messageBegin,
      .requestUrl r.line.url] ++ r.headers.flatMap HeaderLine.callbacks ++
      [.headersComplete (q₁.tells false)] ++ r.chunks.map fun c => .body (q₂.tells false) c.data)
    r.last rfl rfl hchunked
  rw [ChunkLine.record, if_pos r.last_size] at hlast
  -- the headers behind them
  let q₃ : Parser := { q₂ with
    flags.trailing := true
    contentLength := 0
    nread := 0
    state := .headerFieldStart }
  obtain ⟨r₄, i', hd', s', htrailers, hat'⟩ := reads_headers (q := q₃) r.trailers
    (atLine_start rfl) r.trailers_announce
    (by
      have hle := r.trailers_le
      show 0 + _ ≤ _
      omega)
  have hframe' := announced_frame r.trailers_announce
  have hfinish := reads_trailerEnd hat' hframe'.1 hq.request (by
    have hle := r.trailers_le
    show 0 + _ + 2 ≤ _
    omega)
  have hall := ((((hline.append hheaders).append hblank).append hchunks).append hlast).append
    (htrailers.append hfinish)
  have htext : r.line.text ++ headersText r.headers ++ [cr, lf] ++ r.chunks.flatMap Chunk.text ++
      r.last.text ++ (headersText r.trailers ++ [cr, lf]) = r.text := rfl
  rw [htext] at hall
  have hmade : w ++ [.messageBegin, .requestUrl r.line.url] ++
      r.headers.flatMap HeaderLine.callbacks ++ [.headersComplete (r.tells q.statusCode r.flags)] ++
      (r.chunks.map fun c => .body (r.tells q.statusCode r.flags) c.data) ++
      r.trailers.flatMap HeaderLine.callbacks ++
      [.messageComplete (r.tells q.statusCode r.endFlags)] = w ++ r.madeCallbacks q.statusCode := by
    simp [ChunkedRequest.madeCallbacks, ChunkedRequest.callbacksWith]
  refine ⟨{ q₃ with
    flags := r.endFlags
    contentLength := r.endLength
    index := i'
    headerState := hd'
    nread := 0 + (headersText r.trailers).length + 2
    state := if r.keepsAlive then .startReq else .dead }, ?_, hq.request, rfl, ?_, rfl⟩
  · rw [← hmade]
    exact hall
  · show 0 + (headersText r.trailers).length + 2 = r.trailer.length
    simp [ChunkedRequest.trailer]

/-! ## Chunks put together -/

section Whole

variable {l l' : List Callback}

theorem whole_congr {m m' : List Callback} (hl : whole l = whole l') (hm : whole m = whole m') :
    whole (l ++ m) = whole (l' ++ m') := coalesce_append_congr hl hm

/-- The pieces of a body make up one piece. -/
theorem whole_bodies (p : Net.HttpParser) (texts : List Bytes) :
    whole (texts.map fun t => .body p t) =
      whole (if texts = [] then [] else [.body p texts.flatten]) := by
  induction texts with
  | nil => rfl
  | cons t texts ih =>
    rw [if_neg (List.cons_ne_nil _ _), List.map_cons, ← List.singleton_append,
      whole_congr (l := [.body p t]) rfl ih]
    by_cases hnil : texts = []
    · subst hnil
      simp
    · rw [if_neg hnil, List.flatten_cons]
      exact whole_body_pieces [] p p t texts.flatten

variable (r : ChunkedRequest)

/-- The callbacks that are made, put together. -/
theorem whole_madeCallbacks (statusCode : Nat) :
    whole (r.madeCallbacks statusCode) = whole (r.callbacks statusCode) := by
  have hbodies : whole (r.chunks.map fun c => .body (r.tells statusCode r.flags) c.data) =
      whole (if r.chunks = [] then [] else [.body (r.tells statusCode r.flags) r.body]) := by
    have hmap := whole_bodies (r.tells statusCode r.flags) (r.chunks.map Chunk.data)
    rw [List.map_map] at hmap
    refine hmap.trans ?_
    simp only [List.map_eq_nil_iff, ChunkedRequest.body, List.flatMap_def]
  exact whole_congr (whole_congr (whole_congr rfl hbodies) rfl) rfl

/-- No two neighbours among the callbacks bring pieces of one text. -/
theorem apart_chunked (hl : Apart l) : Apart (r.callbacks 0 ++ l) := by
  have hdone : Apart (.messageComplete (r.tells 0 r.endFlags) :: l) := apart_cons hl (.inl rfl)
  have htrailers := apart_headers r.trailers hdone (by simp [pieceKind])
  have hbody : Apart ((if r.chunks = [] then [] else [.body (r.tells 0 r.flags) r.body]) ++
      (r.trailers.flatMap HeaderLine.callbacks ++ .messageComplete (r.tells 0 r.endFlags) :: l)) := by
    split
    · exact htrailers
    · exact apart_cons htrailers (.inr (head_headers r.trailers (by decide) (by simp [pieceKind])))
  have hall := apart_message r.line.url r.headers (r.tells 0 r.flags) hbody
  simpa [ChunkedRequest.callbacks, ChunkedRequest.callbacksWith] using hall

end Whole

/-! ## Requests on a connection -/

/-- A request as it is sent. -/
inductive SentRequest where
  | plain (r : PlainRequest)
  | chunked (r : ChunkedRequest)

namespace SentRequest

def text : SentRequest → Bytes
  | plain r => r.text
  | chunked r => r.text

def head : SentRequest → Bytes
  | plain r => r.head
  | chunked r => r.head

/-- The number of bytes that are counted with the head of the request behind it. -/
def counted : SentRequest → Nat
  | plain _ => 0
  | chunked r => r.trailer.length

def keepsAlive : SentRequest → Bool
  | plain r => r.keepsAlive
  | chunked r => r.keepsAlive

def callbacks : SentRequest → List Callback
  | plain r => r.callbacks 0
  | chunked r => r.callbacks 0

/-- The callbacks that are made when the request is read at once. -/
def madeCallbacks : SentRequest → List Callback
  | plain r => r.callbacks 0
  | chunked r => r.madeCallbacks 0

theorem whole_madeCallbacks (r : SentRequest) : whole r.madeCallbacks = whole r.callbacks := by
  cases r with
  | plain r => rfl
  | chunked r => exact HttpParser.whole_madeCallbacks r 0

theorem apart_callbacks (r : SentRequest) {l : List Callback} (hl : Apart l) :
    Apart (r.callbacks ++ l) := by
  cases r with
  | plain r => exact HttpParser.apart_callbacks r hl
  | chunked r => exact apart_chunked r hl

end SentRequest

/-- With `n` bytes counted, no head is too long, and every request but the last leaves the connection
open. -/
def Acceptable (n : Nat) : List SentRequest → Prop
  | [] => True
  | r :: rs => n + r.head.length ≤ httpMaxHeaderSize ∧ (rs ≠ [] → r.keepsAlive = true) ∧
      Acceptable r.counted rs

section Sent

variable {q : Parser} {w : List Callback}

theorem reads_sentRequest (r : SentRequest) (hq : Idle q) (hstatus : q.statusCode = 0)
    (hn : q.nread + r.head.length ≤ httpMaxHeaderSize) :
    ∃ q', Reads ⟨q, none, w⟩ r.text ⟨q', none, w ++ r.madeCallbacks⟩ ∧
      q'.type = .request ∧ q'.statusCode = 0 ∧ q'.nread = r.counted ∧
      q'.state = if r.keepsAlive then .startReq else .dead := by
  cases r with
  | plain r =>
    obtain ⟨q', hreads, htype, hstatus', hrest⟩ := reads_request (w := w) r hq hn
    rw [hstatus] at hreads hstatus'
    exact ⟨q', hreads, htype, hstatus', hrest⟩
  | chunked r =>
    obtain ⟨q', hreads, htype, hstatus', hrest⟩ := reads_chunkedRequest (w := w) r hq hn
    rw [hstatus] at hreads hstatus'
    exact ⟨q', hreads, htype, hstatus', hrest⟩

/-- Requests one after the other. -/
theorem reads_sentRequests (rs : List SentRequest) (hq : Idle q) (hstatus : q.statusCode = 0)
    (hrs : Acceptable q.nread rs) :
    ∃ q', Reads ⟨q, none, w⟩ (rs.flatMap SentRequest.text)
      ⟨q', none, w ++ rs.flatMap SentRequest.madeCallbacks⟩ := by
  -- by induction on the requests: the parser is idle between two of them
  induction rs generalizing q w with
  | nil =>
    refine ⟨q, ?_⟩
    rw [List.flatMap_nil, List.flatMap_nil, List.append_nil]
    exact Reads.nil _
  | cons r rs ih =>
    obtain ⟨hhead, hkeeps, hrest⟩ := hrs
    obtain ⟨q₁, hread, htype, hstatus₁, hnread, hstate⟩ :=
      reads_sentRequest (w := w) r hq hstatus hhead
    rw [List.flatMap_cons, List.flatMap_cons]
    cases rs with
    | nil =>
      refine ⟨q₁, ?_⟩
      rw [List.flatMap_nil, List.flatMap_nil, List.append_nil, List.append_nil]
      exact hread
    | cons r' rs =>
      rw [if_pos (hkeeps (List.cons_ne_nil _ _))] at hstate
      obtain ⟨q', hreads⟩ := ih (w := w ++ r.madeCallbacks) ⟨hstate, htype⟩ hstatus₁
        (hnread ▸ hrest)
      rw [List.append_assoc] at hreads
      exact ⟨q', hread.append hreads⟩

theorem whole_sentCallbacks (rs : List SentRequest) :
    whole (rs.flatMap SentRequest.madeCallbacks) = rs.flatMap SentRequest.callbacks := by
  have hboth : whole (rs.flatMap SentRequest.madeCallbacks) =
      whole (rs.flatMap SentRequest.callbacks) ∧ Apart (rs.flatMap SentRequest.callbacks) := by
    induction rs with
    | nil => exact ⟨rfl, List.isChain_nil⟩
    | cons r rs ih =>
      rw [List.flatMap_cons, List.flatMap_cons]
      exact ⟨whole_congr r.whole_madeCallbacks ih.1, r.apart_callbacks ih.2⟩
  exact hboth.1.trans (coalesce_of_isChain hboth.2)

/-- **Bodies arrive as they were sent**, whether their length is announced or they come in chunks,
however the texts of the requests are cut into segments: a connection makes the callbacks of the
requests in their order, and the pieces of a text make up the text. -/
theorem feed_sent (rs : List SentRequest) (hrs : Acceptable 0 rs) {segments : List Bytes}
    (h : segments.flatten = rs.flatMap SentRequest.text) :
    ∃ c, Session.feed accepting (.start .request) segments = .ok c ∧ c.parser.errno = .ok ∧
      c.consumed = segments.flatten.length ∧ whole c.made = rs.flatMap SentRequest.callbacks := by
  obtain ⟨q', hreads⟩ := reads_sentRequests (q := .init .request) (w := []) rs ⟨rfl, rfl⟩ rfl hrs
  obtain ⟨c, hc, hparser, he, hconsumed, hmade⟩ := feed_reads hreads h
  exact ⟨c, hc, hparser ▸ he, h.symm ▸ hconsumed, hmade.trans (whole_sentCallbacks rs)⟩

/-- `POST /a HTTP/1.1`, in two chunks, with an extension and a header behind them. -/
def chunkedPost : ChunkedRequest where
  line := postRequest.line
  headers := [{
    name := ascii "Transfer-Encoding"
    ws := ascii " "
    value := ascii "chunked"
    name_ok := by decide
    ws_ok := isWs_blank
    value_first := forall_head_of_all (by decide)
    value_ok := forall_mem_of_all (by decide) }]
  chunks := [{
      line := {
        digits := ascii "3"
        ext := ascii ";x=y"
        digits_hex := forall_mem_of_all (by decide)
        digits_ne_nil := by decide
        ext_first := forall_head_of_all (by decide)
        ext_line := forall_mem_of_all (by decide)
        size_le := by decide
        length_le := by decide }
      data := ascii "abc"
      data_ne_nil := by decide
      length_eq := by decide }, {
      line := {
        digits := ascii "0a"
        ext := []
        digits_hex := forall_mem_of_all (by decide)
        digits_ne_nil := by decide
        ext_first := forall_head_of_all (by decide)
        ext_line := forall_mem_of_all (by decide)
        size_le := by decide
        length_le := by decide }
      data := ascii "0123456789"
      data_ne_nil := by decide
      length_eq := by decide }]
  last := {
    digits := ascii "0"
    ext := []
    digits_hex := forall_mem_of_all (by decide)
    digits_ne_nil := by decide
    ext_first := forall_head_of_all (by decide)
    ext_line := forall_mem_of_all (by decide)
    size_le := by decide
    length_le := by decide }
  trailers := [{
    name := ascii "Etag"
    ws := []
    value := ascii "1"
    name_ok := by decide
    ws_ok := forall_mem_of_all (by decide)
    value_first := forall_head_of_all (by decide)
    value_ok := forall_mem_of_all (by decide) }]
  flags := { Flags.zero with chunked := true }
  endFlags := { Flags.zero with chunked := true, trailing := true }
  contentLength := ullongMax
  endLength := 0
  announces := by decide
  framed := by decide
  last_size := by decide
  trailers_announce := by decide
  trailers_le := by decide

/-- A request in chunks and one with a length, cut within the first chunk and within its size. -/
theorem feed_sent_post :
    ∃ c, Session.feed accepting (.start .request)
        [ascii "POST /a HTTP/1.1\r\nTransfer-Encoding: chunked\r\n\r\n3;x=y\r\na",
          ascii "bc\r\n0", ascii "a\r\n0123456789\r\n0\r\nEtag:1\r\n\r\n",
          ascii "POST /a HTTP/1.1\r\nContent-Length: 3\r\n\r\nabc"] = .ok c ∧
      c.parser.errno = .ok ∧
      c.consumed =
        [ascii "POST /a HTTP/1.1\r\nTransfer-Encoding: chunked\r\n\r\n3;x=y\r\na",
          ascii "bc\r\n0", ascii "a\r\n0123456789\r\n0\r\nEtag:1\r\n\r\n",
          ascii "POST /a HTTP/1.1\r\nContent-Length: 3\r\n\r\nabc"].flatten.length ∧
      whole c.made = [SentRequest.chunked chunkedPost, .plain postRequest].flatMap
        SentRequest.callbacks :=
  feed_sent [.chunked chunkedPost, .plain postRequest] (by simp [Acceptable]; decide) (by decide)

end Sent

end Sails.HttpParser
