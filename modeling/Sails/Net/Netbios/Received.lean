import Sails.Net.Netbios

/-!
# What `handle_ans` reads (`net/netbios.cc`)

- `ReadsReceived`: a call on a datagram that ends with its memory
- `NamesEnd`: the names that are printed have a NUL inside the datagram
- `readsReceived_iff`: when only what was received is read

The length is compared with the header and the names, not with the six bytes of the unit id behind
them; a name of 15 bytes is printed up to a NUL wherever that is.
-/

namespace Sails.Net

open TransitionRun (Fault ok_of_bind)
open CMemory

section Received

variable {nullText : Except Fault Bytes} {buffer : Bytes} {ret : NetbiosQueryAns}

/-- **Only what was received is read**: the memory of the datagram ends with its length. -/
def ReadsReceived (nullText : Except Fault Bytes) (transationID : UInt16) (buffer : Bytes)
    (ret : NetbiosQueryAns) : Prop :=
  ∃ result, handleAns nullText transationID buffer buffer.length ret = .ok result

/-- The texts that are printed end in the datagram, and `snprintf` takes the NULL of a missing
group. -/
def NamesEnd (nullText : Except Fault Bytes) (buffer : Bytes) : Prop :=
  ∀ name, firstFileServer buffer = some name → 0 ∈ buffer.drop name ∧
    (∀ group, firstGroup buffer = some group → 0 ∈ buffer.drop group) ∧
    (firstGroup buffer = none → ∃ s, nullText = .ok s)

/-! ## Printing -/

theorem printed_some_iff (p : Nat) :
    (∃ s, printed nullText buffer (some p) = .ok s) ↔ 0 ∈ buffer.drop p := by
  rw [printed, stringAt_eq]
  by_cases hnul : 0 ∈ buffer.drop p
  · rw [if_pos hnul]
    exact iff_of_true ⟨_, rfl⟩ hnul
  · rw [if_neg hnul]
    exact iff_of_false (fun ⟨_, h⟩ => by cases h) hnul

/-- What can go wrong with the names is reading them. -/
theorem exists_printNames_iff {group : Option Nat} {name : Nat} :
    (∃ ret', printNames nullText buffer group ret (some name) = .ok ret') ↔
      (∃ s, printed nullText buffer (some name) = .ok s) ∧
        ∃ s, printed nullText buffer group = .ok s := by
  constructor
  · rintro ⟨ret', h⟩
    obtain ⟨s, hname, h⟩ := ok_of_bind h
    obtain ⟨retName, -, h⟩ := ok_of_bind h
    obtain ⟨t, hgroup, -⟩ := ok_of_bind h
    exact ⟨⟨s, hname⟩, ⟨t, hgroup⟩⟩
  · rintro ⟨⟨s, hname⟩, ⟨t, hgroup⟩⟩
    obtain ⟨retName, hstore, -⟩ := ret.name.exists_snprintf s
    obtain ⟨retGroup, hstore', -⟩ := ret.group.exists_snprintf t
    refine ⟨{ ret with name := retName, group := retGroup }, ?_⟩
    simp only [printNames, hname, hstore, hgroup, hstore', bind, Except.bind, pure, Except.pure]

theorem exists_printNames_iff_namesEnd (nullText : Except Fault Bytes) (buffer : Bytes)
    (ret : NetbiosQueryAns) :
    (∃ ret', printNames nullText buffer (firstGroup buffer) ret (firstFileServer buffer) = .ok ret') ↔
      NamesEnd nullText buffer := by
  cases hserver : firstFileServer buffer with
  | none =>
    refine iff_of_true ⟨ret, rfl⟩ ?_
    intro name hname
    rw [hserver] at hname
    cases hname
  | some name =>
    rw [exists_printNames_iff, printed_some_iff]
    cases hgroup : firstGroup buffer with
    | none =>
      constructor
      · rintro ⟨hname, s, hs⟩ name' hname'
        rw [hserver] at hname'
        cases hname'
        refine ⟨hname, fun group hsome => ?_, fun _ => ⟨s, hs⟩⟩
        rw [hgroup] at hsome
        cases hsome
      · intro hend
        obtain ⟨hname, -, hnull⟩ := hend name hserver
        exact ⟨hname, hnull hgroup⟩
    | some group =>
      rw [printed_some_iff]
      constructor
      · rintro ⟨hname, hnul⟩ name' hname'
        rw [hserver] at hname'
        cases hname'
        refine ⟨hname, fun group' hsome => ?_, fun hnone => ?_⟩
        · rw [hgroup] at hsome
          cases hsome
          exact hnul
        · rw [hgroup] at hnone
          cases hnone
      · intro hend
        obtain ⟨hname, hsome, -⟩ := hend name hserver
        exact ⟨hname, hsome group hgroup⟩

/-! ## The answer -/

/-- **When `handle_ans` reads only what was received**: it goes no further than its tests, or the
six bytes of the unit id are there and the texts it prints end in the datagram. -/
theorem readsReceived_iff (nullText : Except Fault Bytes) (transationID : UInt16) (buffer : Bytes)
    (ret : NetbiosQueryAns) :
    ReadsReceived nullText transationID buffer ret ↔
      buffer.length ≤ netbiosData ∨ buffer.take 2 ≠ htons transationID ∨
        buffer.length < netbiosData + 18 * nameCount buffer ∨
        netbiosData + 18 * nameCount buffer + 6 ≤ buffer.length ∧ NamesEnd nullText buffer := by
  rw [ReadsReceived, handleAns_eq]
  by_cases hshort : buffer.length ≤ netbiosData
  · rw [if_pos hshort]
    exact iff_of_true ⟨_, rfl⟩ (.inl hshort)
  by_cases hid : buffer.take 2 = htons transationID
  swap
  · rw [if_neg hshort, if_neg hid]
    exact iff_of_true ⟨_, rfl⟩ (.inr (.inl hid))
  rw [if_neg hshort, if_pos hid, handleNames_eq (by omega)]
  by_cases hnames : buffer.length < netbiosData + 18 * nameCount buffer
  · rw [if_pos hnames]
    exact iff_of_true ⟨_, rfl⟩ (.inr (.inr (.inl hnames)))
  rw [if_neg hnames]
  constructor
  · rintro ⟨result, h⟩
    obtain ⟨ret', hprint, h⟩ := ok_of_bind h
    obtain ⟨unitId, hcopy, -⟩ := ok_of_bind h
    have hunit : netbiosData + 18 * nameCount buffer + 6 ≤ buffer.length := by
      by_contra hmissing
      rw [copyUnitId_short ret'.unitId (Nat.le_refl 6) (by omega) (by omega)] at hcopy
      cases hcopy
    exact .inr (.inr (.inr ⟨hunit, (exists_printNames_iff_namesEnd nullText buffer ret).mp ⟨ret', hprint⟩⟩))
  · rintro (h | h | h | ⟨hunit, hend⟩)
    · exact absurd h hshort
    · exact absurd hid h
    · exact absurd h hnames
    obtain ⟨ret', hprint⟩ := (exists_printNames_iff_namesEnd nullText buffer ret).mpr hend
    obtain ⟨unitId, hcopy, -⟩ := copyUnitId_eq ret'.unitId (Nat.le_refl 6)
      (show netbiosData + nameCount buffer * 18 + 0 + 6 ≤ buffer.length by omega)
    refine ⟨(0, { ret' with unitId := unitId }), ?_⟩
    simp only [hprint, hcopy, bind, Except.bind, pure, Except.pure]

/-- An empty answer to the query 0 of one byte more than its header: the unit id is read behind
it. -/
theorem readsReceived_unitId :
    ¬ReadsReceived (.ok (ascii "(null)")) 0 (List.replicate 58 0)
      ⟨.zero 20, .zero 15, .zero 15, .zero 6⟩ := by
  rintro ⟨result, h⟩
  have hfault : handleAns (.ok (ascii "(null)")) 0 (List.replicate 58 0)
      (List.replicate 58 (0 : UInt8)).length ⟨.zero 20, .zero 15, .zero 15, .zero 6⟩ =
      .error .outOfBounds := by decide
  cases hfault.symm.trans h

end Received

end Sails.Net
