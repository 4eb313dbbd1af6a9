import Sails.Net.Netbios.Received

/-!
# Which datagrams `handle_ans` accepts (`net/netbios.cc`)

- `IsAnswer`: the answers to the query, by their identification and their length
- `handleAns_isAnswer`: what is done with one
- `acceptsAnswers_iff`: when 0 is returned for the answers and for nothing else

The datagram is the front of the memory it was received into; what stands behind it is whatever the
caller had there. The test of the identification and the copying of the names share the `return 0` at
the end.
-/

namespace Sails.Net

open TransitionRun (Fault ok_of_bind)
open CMemory

/-- The datagram is an answer to the query: it has its identification, and room for the header, the
names it announces and the unit id. -/
def IsAnswer (transationID : UInt16) (datagram : Bytes) : Prop :=
  datagram.take 2 = htons transationID ∧
    netbiosData + 18 * nameCount datagram + 6 ≤ datagram.length

instance (transationID : UInt16) (datagram : Bytes) : Decidable (IsAnswer transationID datagram) :=
  inferInstanceAs (Decidable (_ ∧ _))

/-- The unit id of an answer: the six bytes behind its names. -/
def unitIdOf (datagram : Bytes) : Bytes :=
  (datagram.drop (netbiosData + 18 * nameCount datagram)).take 6

/-- **`handle_ans` accepts exactly the answers to its own query**, and fills the unit id with that of
the answer. -/
def AcceptsAnswers (nullText : Except Fault Bytes) (transationID : UInt16)
    (datagram behind : Bytes) (ret : NetbiosQueryAns) : Prop :=
  ∃ code ret', handleAns nullText transationID (datagram ++ behind) datagram.length ret =
      .ok (code, ret') ∧
    (code = 0 ↔ IsAnswer transationID datagram) ∧
    (code = 0 → ret'.unitId.bytes = unitIdOf datagram)

section Accepted

variable {nullText : Except Fault Bytes} {transationID : UInt16} {datagram behind : Bytes}
  {ret : NetbiosQueryAns}

/-! ## The datagram in its memory -/

theorem length_le_memory : datagram.length ≤ (datagram ++ behind).length := by
  rw [List.length_append]
  exact Nat.le_add_right _ _

theorem take_two_memory (h : netbiosData < datagram.length) :
    (datagram ++ behind).take 2 = datagram.take 2 := by
  have hdata : netbiosData = 57 := rfl
  exact List.take_append_of_le_length (by omega)

theorem byteOf_memory {i : Nat} (h : i < datagram.length) :
    byteOf (datagram ++ behind) i = byteOf datagram i := by
  rw [byteOf, byteOf, List.getD_eq_getElem?_getD, List.getD_eq_getElem?_getD,
    List.getElem?_append_left h]

theorem nameCount_memory (h : netbiosData < datagram.length) :
    nameCount (datagram ++ behind) = nameCount datagram := by
  have hnumber : netbiosNumber < netbiosData := by decide
  rw [nameCount, nameCount, byteOf_memory (hnumber.trans h)]

theorem IsAnswer.data_lt (h : IsAnswer transationID datagram) : netbiosData < datagram.length := by
  have hlen := h.2
  omega

/-! ## The tests -/

/-- A datagram with the identification of the query, and with all its names. -/
theorem handleAns_names (hdata : netbiosData < datagram.length)
    (hid : datagram.take 2 = htons transationID)
    (hnames : netbiosData + 18 * nameCount datagram ≤ datagram.length) :
    handleAns nullText transationID (datagram ++ behind) datagram.length ret = do
      let ret' ← printNames nullText (datagram ++ behind) (firstGroup (datagram ++ behind)) ret
        (firstFileServer (datagram ++ behind))
      let unitId ← copyUnitId (datagram ++ behind) (netbiosData + nameCount datagram * 18) 0
        ret'.unitId 6
      return (0, { ret' with unitId := unitId }) := by
  rw [handleAns_memory length_le_memory, if_neg (Nat.not_le.mpr hdata), take_two_memory hdata,
    if_pos hid, handleNames_memory hdata length_le_memory, nameCount_memory hdata,
    if_neg (Nat.not_lt.mpr hnames)]

/-- The unit id that is copied is that of the answer. -/
theorem copyUnitId_answer (h : IsAnswer transationID datagram) (behind : Bytes)
    (retId : CharArray 6) :
    ∃ retId', copyUnitId (datagram ++ behind) (netbiosData + nameCount datagram * 18) 0 retId 6 =
        .ok retId' ∧ retId'.bytes = unitIdOf datagram := by
  have hlen := h.2
  obtain ⟨retId', hcopy, hbytes⟩ := copyUnitId_eq retId (Nat.le_refl 6)
    (show netbiosData + nameCount datagram * 18 + 0 + 6 ≤ (datagram ++ behind).length by
      rw [List.length_append]; omega)
  refine ⟨retId', hcopy, ?_⟩
  have hstart : netbiosData + nameCount datagram * 18 + 0 =
      netbiosData + 18 * nameCount datagram := by omega
  have htake : ((datagram ++ behind).drop (netbiosData + 18 * nameCount datagram)).take 6 =
      unitIdOf datagram := by
    rw [unitIdOf, List.drop_append_of_le_length (by omega),
      List.take_append_of_le_length (by rw [List.length_drop]; omega)]
  have hfull : (unitIdOf datagram).length = retId.bytes.length := by
    rw [unitIdOf, List.length_take, List.length_drop, retId.length_bytes]
    omega
  rw [hbytes, hstart, htake, splice, List.take_zero, List.nil_append, Nat.zero_add, hfull,
    List.drop_length, List.append_nil]

/-- **An answer to the query**: 0 is returned with its unit id, unless printing the names fails. -/
theorem handleAns_isAnswer (h : IsAnswer transationID datagram) {result : Int × NetbiosQueryAns} :
    handleAns nullText transationID (datagram ++ behind) datagram.length ret = .ok result ↔
      ∃ ret' unitId, printNames nullText (datagram ++ behind) (firstGroup (datagram ++ behind)) ret
          (firstFileServer (datagram ++ behind)) = .ok ret' ∧
        unitId.bytes = unitIdOf datagram ∧ result = (0, { ret' with unitId := unitId }) := by
  have hlen := h.2
  rw [handleAns_names h.data_lt h.1 (by omega)]
  constructor
  · intro hok
    obtain ⟨ret', hprint, hok⟩ := ok_of_bind hok
    obtain ⟨unitId, hcopy, hok⟩ := ok_of_bind hok
    obtain ⟨unitId', hcopy', hbytes⟩ := copyUnitId_answer h behind ret'.unitId
    cases hcopy.symm.trans hcopy'
    cases hok
    exact ⟨ret', unitId, hprint, hbytes, rfl⟩
  · rintro ⟨ret', unitId, hprint, hbytes, rfl⟩
    obtain ⟨unitId', hcopy, hbytes'⟩ := copyUnitId_answer h behind ret'.unitId
    have hunit : unitId' = unitId := CharArray.eq_of_bytes (hbytes'.trans hbytes.symm)
    rw [hprint]
    simp only [bind, Except.bind, hcopy, hunit, pure, Except.pure]

/-- Too short for the unit id, but not for the names: what is returned, if anything, is 0. -/
theorem handleAns_short (hdata : netbiosData < datagram.length)
    (hid : datagram.take 2 = htons transationID)
    (hnames : netbiosData + 18 * nameCount datagram ≤ datagram.length)
    {result : Int × NetbiosQueryAns}
    (hok : handleAns nullText transationID (datagram ++ behind) datagram.length ret = .ok result) :
    result.1 = 0 := by
  rw [handleAns_names hdata hid hnames] at hok
  obtain ⟨ret', -, hok⟩ := ok_of_bind hok
  obtain ⟨unitId, -, hok⟩ := ok_of_bind hok
  cases hok
  rfl

/-! ## What is accepted -/

/-- Nothing behind the header: the datagram is refused, and no answer. -/
theorem acceptsAnswers_of_length_le (h : datagram.length ≤ netbiosData) :
    AcceptsAnswers nullText transationID datagram behind ret := by
  refine ⟨-1, ret, ?_, iff_of_false (by decide) fun hanswer => ?_, fun hcode => by cases hcode⟩
  · rw [handleAns_memory length_le_memory, if_pos h]
  · exact absurd hanswer.data_lt (Nat.not_lt.mpr h)

/-- The identification of another query: 0 is returned all the same. -/
theorem not_acceptsAnswers_of_unrelated (hdata : netbiosData < datagram.length)
    (hid : datagram.take 2 ≠ htons transationID) :
    ¬AcceptsAnswers nullText transationID datagram behind ret := by
  rintro ⟨code, ret', hok, hcode, -⟩
  rw [handleAns_memory length_le_memory, if_neg (Nat.not_le.mpr hdata), take_two_memory hdata,
    if_neg hid] at hok
  cases hok
  exact hid (hcode.mp rfl).1

/-- Names are missing: the datagram is refused, and no answer. -/
theorem acceptsAnswers_of_names_lt (hdata : netbiosData < datagram.length)
    (hid : datagram.take 2 = htons transationID)
    (hnames : datagram.length < netbiosData + 18 * nameCount datagram) :
    AcceptsAnswers nullText transationID datagram behind ret := by
  refine ⟨-1, ret, ?_, iff_of_false (by decide) fun hanswer => ?_, fun hcode => by cases hcode⟩
  · rw [handleAns_memory length_le_memory, if_neg (Nat.not_le.mpr hdata), take_two_memory hdata,
      if_pos hid, handleNames_memory hdata length_le_memory, nameCount_memory hdata, if_pos hnames]
  · have hlen := hanswer.2
    omega

/-- A byte of the unit id is missing: 0 is returned, if anything is. -/
theorem not_acceptsAnswers_of_unitId_lt (hdata : netbiosData < datagram.length)
    (hid : datagram.take 2 = htons transationID)
    (hnames : netbiosData + 18 * nameCount datagram ≤ datagram.length)
    (hunit : datagram.length < netbiosData + 18 * nameCount datagram + 6) :
    ¬AcceptsAnswers nullText transationID datagram behind ret := by
  rintro ⟨code, ret', hok, hcode, -⟩
  have hlen := (hcode.mp (handleAns_short hdata hid hnames hok)).2
  omega

/-- An answer is accepted when its names can be printed. -/
theorem acceptsAnswers_answer_iff (h : IsAnswer transationID datagram) :
    AcceptsAnswers nullText transationID datagram behind ret ↔
      NamesEnd nullText (datagram ++ behind) := by
  rw [← exists_printNames_iff_namesEnd nullText (datagram ++ behind) ret]
  constructor
  · rintro ⟨code, ret', hok, -, -⟩
    obtain ⟨ret'', -, hprint, -, -⟩ := (handleAns_isAnswer h).mp hok
    exact ⟨ret'', hprint⟩
  · rintro ⟨ret', hprint⟩
    obtain ⟨unitId, -, hbytes⟩ := copyUnitId_answer h behind ret'.unitId
    refine ⟨0, { ret' with unitId := unitId }, ?_, iff_of_true rfl h, fun _ => hbytes⟩
    exact (handleAns_isAnswer h).mpr ⟨ret', unitId, hprint, hbytes, rfl⟩

/-- **When `handle_ans` accepts the answers only**: the datagram has no more than the header, or it
has the identification of the query and either lacks names, or has its unit id too and names that can
be printed. -/
theorem acceptsAnswers_iff (nullText : Except Fault Bytes) (transationID : UInt16)
    (datagram behind : Bytes) (ret : NetbiosQueryAns) :
    AcceptsAnswers nullText transationID datagram behind ret ↔
      datagram.length ≤ netbiosData ∨
        datagram.take 2 = htons transationID ∧
          (datagram.length < netbiosData + 18 * nameCount datagram ∨
            netbiosData + 18 * nameCount datagram + 6 ≤ datagram.length ∧
              NamesEnd nullText (datagram ++ behind)) := by
  by_cases hshort : datagram.length ≤ netbiosData
  · exact iff_of_true (acceptsAnswers_of_length_le hshort) (.inl hshort)
  have hdata := Nat.lt_of_not_le hshort
  rw [or_iff_right hshort]
  by_cases hid : datagram.take 2 = htons transationID
  swap
  · exact iff_of_false (not_acceptsAnswers_of_unrelated hdata hid) fun h => hid h.1
  rw [and_iff_right hid]
  by_cases hnames : datagram.length < netbiosData + 18 * nameCount datagram
  · exact iff_of_true (acceptsAnswers_of_names_lt hdata hid hnames) (.inl hnames)
  rw [or_iff_right hnames]
  by_cases hunit : netbiosData + 18 * nameCount datagram + 6 ≤ datagram.length
  · rw [and_iff_right hunit]
    exact acceptsAnswers_answer_iff ⟨hid, hunit⟩
  · refine iff_of_false ?_ fun h => hunit h.1
    exact not_acceptsAnswers_of_unitId_lt hdata hid (Nat.le_of_not_lt hnames)
      (Nat.lt_of_not_le hunit)

/-- A datagram of 58 zero bytes, for a query with the identification 1: 0 is returned. -/
theorem acceptsAnswers_unrelated :
    ¬AcceptsAnswers (.ok (ascii "(null)")) 1 (List.replicate 58 0) (List.replicate 442 0)
      ⟨.zero 20, .zero 15, .zero 15, .zero 6⟩ :=
  not_acceptsAnswers_of_unrelated (by decide) (by decide)

end Accepted

end Sails.Net
