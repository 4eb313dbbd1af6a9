import Sails.Base.Buffer.Words
import Mathlib.Logic.Function.Basic

/-!
# `base::Buffer` is a queue of bytes

Any number of buffers, the calls made on them in any order, and beside each buffer the abstract
queue of the bytes it should hold.

- `Written`: a byte of the abstract queue and what wrote it
- `Call`, `World`: the calls on one buffer, all buffers with `swap` between them
- `Fifo`: what a caller relies on in every state
- `fifo_iff`: all states of a run are so exactly when no request for room wraps around `size_t`
-/

namespace Sails.Base

open TransitionRun
open CMemory

/-! ## The abstract queue -/

/-- A byte in the queue: one of a byte string, or the `k`-th of an `append_int32(x)`. -/
inductive Written where
  | plain (c : UInt8)
  | int32 (x : Int32) (k : Fin 4)
  deriving DecidableEq

/-- The byte itself; an integer is written in network order. -/
def Written.byte : Written → UInt8
  | .plain c => c
  | .int32 x k => (bigEndian x.toUInt32).get k

/-- What `append_int32(x)` writes. -/
def Written.ofInt32 (x : Int32) : List Written := [.int32 x 0, .int32 x 1, .int32 x 2, .int32 x 3]

theorem Written.map_byte_ofInt32 (x : Int32) :
    (ofInt32 x).map byte = bigEndian x.toUInt32 := rfl

theorem Written.map_byte_plain (bs : Bytes) : (bs.map plain).map byte = bs := by
  rw [List.map_map]
  exact List.map_id bs

/-! ## Calls on one buffer -/

/-- A call, with what its caller passes and what the kernel answers. -/
inductive Call where
  | append (src : MemoryObject)
  | appendInt32 (x : Int32)
  | read (len : UInt64) (answer : ReadAnswer len.toNat)
  | ensureWriteable (len : UInt64)
  | makeSpace (len : UInt64)
  | retrieve (len : UInt64)
  | retrieveAll
  | readInt32
  | peekInt32

namespace Call

/-- The buffer after the call has returned. -/
def perform (host : Endian) (b : RawBuffer) : Call → Except Failure RawBuffer
  | append src => b.append src
  | appendInt32 x => b.appendInt32 host x
  | read len answer => return (← b.read len answer).2
  | ensureWriteable len => b.ensureWriteable len
  | makeSpace len => b.makeSpace len
  | retrieve len => .ok (b.retrieve len)
  | retrieveAll => .ok b.retrieveAll
  | readInt32 => return (← b.readInt32 host).2
  | peekInt32 => do
    let _ ← b.peekInt32 host
    return b

/-- The abstract queue after the call has returned. -/
def enqueue (q : List Written) : Call → List Written
  | append src => q ++ src.bytes.map .plain
  | appendInt32 x => q ++ Written.ofInt32 x
  | read _ answer => q ++ answer.bytes.map .plain
  | retrieve len => q.drop (min len.toNat q.length)
  | retrieveAll => []
  | readInt32 => q.drop 4
  | ensureWriteable _ | makeSpace _ | peekInt32 => q

/-- An integer is only asked for when four bytes are there. -/
def Admitted (q : List Written) : Call → Prop
  | readInt32 | peekInt32 => 4 ≤ q.length
  | _ => True

/-- The room asked for does not wrap; `append` need not be asked this. -/
def InRange (b : RawBuffer) : Call → Prop
  | ensureWriteable len | makeSpace len | read len _ => b.RoomInRange len
  | _ => True

end Call

/-- What a caller of the buffer relies on. -/
structure Fifo (host : Endian) (b : RawBuffer) (q : List Written) : Prop where
  readIndex_le : b.readIndex ≤ b.writeIndex
  writeIndex_le : b.writeIndex.toNat ≤ b.data.length
  /-- the readable region is the abstract queue -/
  content : (b.data.take b.writeIndex.toNat).drop b.readIndex.toNat = q.map Written.byte
  /-- an integer at the front is read as it was written -/
  readInt32 : ∀ x, Written.ofInt32 x <+: q → ∃ b', b.readInt32 host = .ok (x, b')

/-- The buffer is a well-formed one with the queue as its content. -/
def Refines (b : RawBuffer) (q : List Written) : Prop :=
  ∃ b₀ : Buffer, b = b₀.raw ∧ b₀.InMemory ∧ b₀.content = q.map Written.byte

theorem Refines.init : Refines RawBuffer.init [] :=
  ⟨Buffer.init, rfl, Buffer.inMemory_init, by simp⟩

theorem Refines.fifo {host : Endian} {b : RawBuffer} {q : List Written} (h : Refines b q) :
    Fifo host b q := by
  obtain ⟨b₀, rfl, hmem, hcontent⟩ := h
  have hread := b₀.toNat_raw_readIndex hmem
  have hwrite := b₀.toNat_raw_writeIndex hmem
  refine ⟨?_, ?_, ?_, fun x hfront => ?_⟩
  · rw [UInt64.le_iff_toNat_le, hread, hwrite]
    exact b₀.readIndex_le
  · rw [hwrite]
    exact b₀.writeIndex_le
  · rw [hread, hwrite]
    exact hcontent
  · obtain ⟨rest, rfl⟩ := hfront
    have hbytes : b₀.content = bigEndian x.toUInt32 ++ rest.map Written.byte := by
      rw [hcontent, List.map_append, Written.map_byte_ofInt32]
    have hfour : 4 ≤ b₀.readable := by
      rw [← b₀.length_content, hbytes, List.length_append, length_bigEndian]
      omega
    -- the four bytes are those of the word in network order
    have htake : b₀.content.take 4 = bigEndian x.toUInt32 := by rw [hbytes]; rfl
    refine ⟨(b₀.retrieve 4).raw, ?_⟩
    rw [b₀.readInt32_raw hmem host hfour, htake, Endian.ntohl_load_bigEndian]

theorem not_fifo_of_overrun {host : Endian} {b : RawBuffer} {q : List Written} (h : b.Overrun) :
    ¬ Fifo host b q := by
  intro hfifo
  have hlt : b.data.length < b.writeIndex.toNat := h
  exact absurd hfifo.writeIndex_le (Nat.not_le.mpr hlt)

/-! ## One call -/

section OneCall

variable {b : RawBuffer} {q : List Written}

/-- Appending a byte string. -/
theorem Refines.append (h : Refines b q) (src : MemoryObject) (ws : List Written)
    (hws : ws.map Written.byte = src.bytes) :
    (∃ b', b.append src = .ok b' ∧ Refines b' (q ++ ws)) ∨ b.append src = .error .lengthError := by
  obtain ⟨b₀, rfl, hmem, hcontent⟩ := h
  rcases b₀.append_raw hmem src with ⟨b₁, htyped, hok, hmem₁⟩ | hthrow
  -- and that appends to its content
  · obtain ⟨b₂, hspec, hcontent₂⟩ := b₀.append_spec src.bytes
    obtain rfl : b₁ = b₂ := Except.ok.inj (htyped.symm.trans hspec)
    refine .inl ⟨b₁.raw, hok, b₁, rfl, hmem₁, ?_⟩
    rw [hcontent₂, hcontent, List.map_append, hws]
  · exact .inr hthrow

/-- **One call**: unless the room asked for wraps, the call returns with the buffer holding the
queue the call makes, or it throws. -/
theorem Refines.perform (host : Endian) (h : Refines b q) (call : Call) (hadm : call.Admitted q)
    (hrange : call.InRange b) :
    (∃ b', call.perform host b = .ok b' ∧ Refines b' (call.enqueue q)) ∨
      call.perform host b = .error .lengthError := by
  cases call with
  | append src => exact h.append src _ (Written.map_byte_plain _)
  | appendInt32 x =>
    have hbytes : (Written.ofInt32 x).map Written.byte = (RawBuffer.be32 host x).bytes := by
      exact (Endian.object_htonl host x.toUInt32).symm
    exact h.append (RawBuffer.be32 host x) _ hbytes
  | read len answer =>
    obtain ⟨b₀, rfl, hmem, hcontent⟩ := h
    -- in range, the words do what the well-formed buffer does
    have hfits := (b₀.roomInRange_iff hmem).mp hrange
    rcases b₀.read_raw hmem answer hfits with ⟨b₁, htyped, hok, hmem₁⟩ | hthrow
    · obtain ⟨b₂, hspec, hcontent₂⟩ := b₀.read_spec len.toNat answer
      obtain rfl : b₁ = b₂ := congrArg Prod.fst (Except.ok.inj (htyped.symm.trans hspec))
      refine .inl ⟨b₁.raw, ?_, b₁, rfl, hmem₁, ?_⟩
      · simp only [Call.perform, hok, bind, Except.bind, pure, Except.pure]
      · rw [hcontent₂, hcontent, Call.enqueue, List.map_append, Written.map_byte_plain]
    · right
      simp only [Call.perform, hthrow, bind, Except.bind]
  | ensureWriteable len =>
    obtain ⟨b₀, rfl, hmem, hcontent⟩ := h
    have hfits := (b₀.roomInRange_iff hmem).mp hrange
    rcases b₀.ensureWriteable_raw hmem hfits with ⟨b₁, htyped, hok, hmem₁⟩ | hthrow
    · obtain ⟨b₂, hspec, hcontent₂, -⟩ := b₀.ensureWriteable_spec len.toNat
      obtain rfl : b₁ = b₂ := Except.ok.inj (htyped.symm.trans hspec)
      exact .inl ⟨b₁.raw, hok, b₁, rfl, hmem₁, hcontent₂.trans hcontent⟩
    · exact .inr hthrow
  | makeSpace len =>
    obtain ⟨b₀, rfl, hmem, hcontent⟩ := h
    have hfits := (b₀.roomInRange_iff hmem).mp hrange
    rcases b₀.makeSpace_raw hmem hfits with ⟨hok, hmem₁⟩ | hthrow
    · exact .inl ⟨_, hok, _, rfl, hmem₁, (b₀.content_makeSpace _).trans hcontent⟩
    · exact .inr hthrow
  | retrieve len =>
    obtain ⟨b₀, rfl, hmem, hcontent⟩ := h
    refine .inl ⟨_, congrArg _ (b₀.retrieve_raw hmem len), _, rfl, b₀.inMemory_retrieve hmem _, ?_⟩
    rw [b₀.content_retrieve, hcontent, Call.enqueue, ← List.map_drop]
    -- dropping more than there is drops all
    congr 1
    rcases Nat.le_total len.toNat q.length with hle | hle
    · rw [Nat.min_eq_left hle]
    · rw [Nat.min_eq_right hle, List.drop_length, List.drop_of_length_le hle]
  | retrieveAll =>
    obtain ⟨b₀, rfl, hmem, hcontent⟩ := h
    exact .inl ⟨b₀.retrieveAll.raw, rfl, b₀.retrieveAll, rfl, hmem, b₀.content_retrieveAll⟩
  | readInt32 =>
    obtain ⟨b₀, rfl, hmem, hcontent⟩ := h
    have hfour : 4 ≤ b₀.readable := by
      rw [← b₀.length_content, hcontent, List.length_map]
      exact hadm
    refine .inl ⟨(b₀.retrieve 4).raw, ?_, b₀.retrieve 4, rfl, b₀.inMemory_retrieve hmem 4, ?_⟩
    · simp only [Call.perform, b₀.readInt32_raw hmem host hfour, bind, Except.bind, pure, Except.pure]
    · rw [b₀.content_retrieve, hcontent, Call.enqueue, List.map_drop]
  | peekInt32 =>
    have hq := h
    obtain ⟨b₀, rfl, hmem, hcontent⟩ := h
    have hfour : 4 ≤ b₀.readable := by
      rw [← b₀.length_content, hcontent, List.length_map]
      exact hadm
    refine .inl ⟨b₀.raw, ?_, hq⟩
    simp only [Call.perform, b₀.peekInt32_raw hmem host hfour, bind, Except.bind, pure, Except.pure]

/-- A request for room that wraps leaves the write index behind the end of the vector, or lets
the kernel write there. -/
theorem Refines.perform_of_wraps (host : Endian) (h : Refines b q) (call : Call)
    (hwraps : ¬ call.InRange b) :
    (∃ b', call.perform host b = .ok b' ∧ b'.Overrun) ∨
      ∃ f, call.perform host b = .error (.fault f) := by
  obtain ⟨b₀, rfl, hmem, -⟩ := h
  cases call with
  | read len answer =>
    have hroom := (b₀.not_roomInRange_iff hmem).mp hwraps
    rcases b₀.read_raw_of_wraps hmem answer hroom.1 hroom.2 with ⟨n, r, hok, hover⟩ | ⟨f, hfault⟩
    · refine .inl ⟨r, ?_, hover⟩
      simp only [Call.perform, hok, bind, Except.bind, pure, Except.pure]
    · refine .inr ⟨f, ?_⟩
      simp only [Call.perform, hfault, bind, Except.bind]
  | ensureWriteable len =>
    have hroom := (b₀.not_roomInRange_iff hmem).mp hwraps
    exact .inl (b₀.ensureWriteable_raw_of_wraps hmem hroom.1 hroom.2)
  | makeSpace len =>
    have hroom := (b₀.not_roomInRange_iff hmem).mp hwraps
    obtain ⟨r, hok, hover, -⟩ := b₀.makeSpace_raw_of_wraps hmem hroom.1 hroom.2
    exact .inl ⟨r, hok, hover⟩
  | append | appendInt32 | retrieve | retrieveAll | readInt32 | peekInt32 =>
    exact absurd trivial hwraps

end OneCall

/-! ## All buffers -/

/-- The buffers of a program, and the queue each of them should hold. -/
structure World (ι : Type) where
  buffers : ι → RawBuffer
  queues : ι → List Written

/-- A call on the buffer `i`, or `swap` of two buffers. -/
inductive Op (ι : Type) where
  | call (i : ι) (call : Call)
  | swap (i j : ι)

namespace World

variable {ι : Type} [DecidableEq ι]

/-- Buffers just constructed. -/
def fresh : World ι := ⟨fun _ => .init, fun _ => []⟩

/-- One operation; a call that throws has changed nothing. -/
def step (host : Endian) (w : World ι) : Op ι → Except Fault (World ι)
  | .call i call =>
    match call.perform host (w.buffers i) with
    | .ok b => .ok ⟨Function.update w.buffers i b,
        Function.update w.queues i (call.enqueue (w.queues i))⟩
    | .error .lengthError => .ok w
    | .error (.fault f) => .error f
  | .swap i j =>
    let (b, other) := (w.buffers i).swap (w.buffers j)
    .ok ⟨Function.update (Function.update w.buffers i b) j other,
      Function.update (Function.update w.queues i (w.queues j)) j (w.queues i)⟩

/-- Integers are only read where four bytes are readable. -/
def Admitted (w : World ι) : Op ι → Prop
  | .call i call => call.Admitted (w.queues i)
  | .swap _ _ => True

/-- No request for room wraps. -/
def InRange (w : World ι) : Op ι → Prop
  | .call i call => call.InRange (w.buffers i)
  | .swap _ _ => True

/-- Every buffer is what its caller relies on. -/
def Good (host : Endian) (w : World ι) : Prop := ∀ i, Fifo host (w.buffers i) (w.queues i)

/-- Every buffer is a well-formed one that holds its queue. -/
def Inv (w : World ι) : Prop := ∀ i, Refines (w.buffers i) (w.queues i)

variable {host : Endian} {w : World ι}

omit [DecidableEq ι] in
theorem Inv.good (h : w.Inv) : w.Good host := fun i => (h i).fifo

omit [DecidableEq ι] in
theorem Inv.fresh : (World.fresh : World ι).Inv := fun _ => .init

/-- Giving one buffer new members and its queue new bytes. -/
theorem Inv.update (h : w.Inv) (i : ι) {b : RawBuffer} {q : List Written} (hb : Refines b q) :
    Inv ⟨Function.update w.buffers i b, Function.update w.queues i q⟩ := by
  intro k
  by_cases hk : k = i
  · subst hk
    simpa using hb
  -- another buffer has kept its members
  · simpa [Function.update_of_ne hk] using h k

/-- **Step**: an admitted operation in range does not fail and keeps the invariant. -/
theorem step_ok (host : Endian) (h : w.Inv) {op : Op ι} (hadm : w.Admitted op)
    (hrange : w.InRange op) : ∃ w', step host w op = .ok w' ∧ w'.Inv := by
  cases op with
  | call i call =>
    rcases (h i).perform host call hadm hrange with ⟨b, hok, hb⟩ | hthrow
    · exact ⟨_, by simp only [step, hok], h.update i hb⟩
    · exact ⟨w, by simp only [step, hthrow], h⟩
  | swap i j => exact ⟨_, rfl, (h.update i (h j)).update j (h i)⟩

/-- An operation out of range fails, or leaves a buffer overrun. -/
theorem not_good_of_wraps (h : w.Inv) {op : Op ι} {w' : World ι} (hstep : step host w op = .ok w')
    (hwraps : ¬ w.InRange op) : ¬ w'.Good host := by
  cases op with
  | call i call =>
    rcases (h i).perform_of_wraps host call hwraps with ⟨b, hok, hover⟩ | ⟨f, hfault⟩
    · simp only [step, hok, Except.ok.injEq] at hstep
      subst hstep
      intro hgood
      refine not_fifo_of_overrun hover (?_ : Fifo host b (call.enqueue (w.queues i)))
      simpa using hgood i
    · simp only [step, hfault, reduceCtorEq] at hstep
  | swap i j => exact absurd trivial hwraps

/-- **A buffer is a queue of bytes.** In a run that reads integers only where four bytes are
readable, no operation fails and every state is as its callers rely on exactly when no request
for room wraps around `size_t`. -/
theorem fifo_iff (host : Endian) (ops : List (Op ι)) (hadm : Along (step host) Admitted fresh ops) :
    (∃ w, run (step host) fresh ops = .ok w ∧
      Along (step host) (fun w _ => w.Good host) fresh ops ∧ w.Good host) ↔
      Along (step host) InRange fresh ops := by
  have hsafe : ∀ (w w' : World ι) (op : Op ι), w.Inv → w.Admitted op → step host w op = .ok w' →
      (w.InRange op → w'.Inv) ∧ (w'.Good host → w.InRange op) := by
    intro w w' op hinv hop hstep
    refine ⟨fun hrange => ?_, fun hgood => ?_⟩
    · obtain ⟨t, ht, hinv'⟩ := step_ok host hinv hop hrange
      rwa [Except.ok.inj (hstep.symm.trans ht)]
    · by_contra hwraps
      exact not_good_of_wraps hinv hstep hwraps hgood
  constructor
  · rintro ⟨w, hrun, hgood⟩
    exact (always_iff_along (fun w hw => hw.good) (fun w op w' => hsafe w w' op) Inv.fresh hadm
      hrun).mp hgood
  · intro hrange
    obtain ⟨w, hrun, -⟩ := run_ok (fun w op hinv hop => step_ok host hinv hop.1 hop.2)
      Inv.fresh (hadm.and hrange)
    exact ⟨w, hrun, (always_iff_along (fun w hw => hw.good) (fun w op w' => hsafe w w' op) Inv.fresh
      hadm hrun).mpr hrange⟩

set_option maxRecDepth 20000 in
/-- Appending an integer and reading it back is a run in range. -/
theorem fifo_iff_int32 :
    ∃ w, run (step .little) (fresh : World Unit)
        [.call () (.appendInt32 (-2)), .call () .readInt32] = .ok w ∧
      Along (step .little) (fun w _ => w.Good .little) (fresh : World Unit)
        [.call () (.appendInt32 (-2)), .call () .readInt32] ∧ w.Good .little := by
  refine (fifo_iff .little [.call () (.appendInt32 (-2)), .call () .readInt32] ?_).mpr ?_
  · refine ⟨trivial, fun w hw => ⟨?_, fun _ _ => trivial⟩⟩
    -- four bytes are readable after the first call
    have hq : w.queues () = Written.ofInt32 (-2) := by cases hw; rfl
    rw [Admitted, Call.Admitted, hq]
    decide
  · exact ⟨trivial, fun _ _ => ⟨trivial, fun _ _ => trivial⟩⟩

set_option maxRecDepth 20000 in
/-- One byte appended and room asked for `SIZE_MAX` more: the vector is resized to nothing, the
assertion holds, and the write index stays at 1. -/
theorem sizeMax_room_breaks_fifo :
    ¬ ∃ w, run (step .little) (fresh : World Unit)
        [.call () (.append ⟨[7], by decide⟩), .call () (.ensureWriteable 0xFFFFFFFFFFFFFFFF)] = .ok w ∧
      Along (step .little) (fun w _ => w.Good .little) (fresh : World Unit)
        [.call () (.append ⟨[7], by decide⟩), .call () (.ensureWriteable 0xFFFFFFFFFFFFFFFF)] ∧
      w.Good .little := by
  rintro ⟨w, hrun, -, hgood⟩
  have hover : (w.buffers ()).Overrun := by
    cases hrun
    -- the vector has been resized to 0, and the write index is 1
    show (0 : Nat) < 1
    decide
  exact not_fifo_of_overrun hover (hgood ())

end World

end Sails.Base
