import Sails.Net.Netbios.Accepted
import Mathlib.Data.List.Find

/-!
# Which names `handle_ans` picks (`net/netbios.cc`)

- `announcedServer`, `announcedGroup`: the entries of an answer that should be picked, by the top bit
  of their flag word
- `entryName`: the text of an entry, in its 15 bytes
- `picksNames_iff`: when the names that are printed are those

`findGroup` and `findFileServer` decode the flags from signed characters, so that the low byte counts
as well (`flagsOf_group_iff`); the names are printed with `%s` into arrays as long as a name, and the
group also if there is none.
-/

namespace Sails.Net

open TransitionRun (Fault ok_of_bind)
open CMemory

/-! ## The entries of an answer -/

/-- The flag word of the entry, in network order. -/
def flagWord (datagram : Bytes) (p : Nat) : Nat :=
  (byteOf datagram (p + 16)).toNat * 256 + (byteOf datagram (p + 17)).toNat

/-- The top bit of the flag word marks a group. -/
def MarksGroup (datagram : Bytes) (p : Nat) : Prop := 2 ^ 15 ≤ flagWord datagram p

instance (datagram : Bytes) (p : Nat) : Decidable (MarksGroup datagram p) :=
  inferInstanceAs (Decidable (_ ≤ _))

/-- The entry is one of a file server. -/
def MarksServer (datagram : Bytes) (p : Nat) : Prop :=
  ¬MarksGroup datagram p ∧ byteOf datagram (p + 15) = netbiosFileserver

instance (datagram : Bytes) (p : Nat) : Decidable (MarksServer datagram p) :=
  inferInstanceAs (Decidable (_ ∧ _))

/-- The first group entry. -/
def announcedGroup (datagram : Bytes) : Option Nat :=
  (entries 0 (nameCount datagram)).find? fun p => MarksGroup datagram p

/-- The first file server entry. -/
def announcedServer (datagram : Bytes) : Option Nat :=
  (entries 0 (nameCount datagram)).find? fun p => MarksServer datagram p

/-- The text of an entry: its 15 name bytes up to a NUL. -/
def entryName (datagram : Bytes) (p : Nat) : Bytes := text ((datagram.drop p).take 15)

/-- The text of the group: that of the first group entry, or nothing. -/
def groupName (datagram : Bytes) : Bytes :=
  (announcedGroup datagram).elim [] (entryName datagram)

/-- An accepted answer: it passes the tests of `handle_ans`, and the bytes read for the unit id are in
its memory. -/
structure Accepted (transationID : UInt16) (datagram behind : Bytes) : Prop where
  data_lt : netbiosData < datagram.length
  identification : datagram.take 2 = htons transationID
  names_le : netbiosData + 18 * nameCount datagram ≤ datagram.length
  unitId_le : netbiosData + 18 * nameCount datagram + 6 ≤ (datagram ++ behind).length

/-- **`handle_ans` picks the right names**, whatever the caller's `ret` holds. -/
def PicksNames (nullText : Except Fault Bytes) (transationID : UInt16)
    (datagram behind : Bytes) : Prop :=
  ∀ ret, ∃ ret', handleAns nullText transationID (datagram ++ behind) datagram.length ret =
      .ok (0, ret') ∧
    match announcedServer datagram with
    | some p => ret'.name.str = entryName datagram p ∧ ret'.group.str = groupName datagram
    | none => ret'.name = ret.name ∧ ret'.group = ret.group

/-! ## What `snprintf` makes of an entry -/

/-- Printed into 15 bytes, the string at the entry is `s`; for `none` NULL is printed. -/
def Prints (nullText : Except Fault Bytes) (memory : Bytes) (s : Bytes) : Option Nat → Prop
  | some p => 0 ∈ memory.drop p ∧ (text (memory.drop p)).take 14 = s
  | none => ∃ t, nullText = .ok t ∧ text (t.take 14) = s

section Names

variable {nullText : Except Fault Bytes} {transationID : UInt16} {datagram behind memory : Bytes}
  {ret : NetbiosQueryAns} {s : Bytes} {p : Nat}

theorem prints_iff {entry : Option Nat} :
    Prints nullText memory s entry ↔
      ∃ t, printed nullText memory entry = .ok t ∧ text (t.take 14) = s := by
  cases entry with
  | none => exact Iff.rfl
  | some p =>
    have htext : text ((text (memory.drop p)).take 14) = (text (memory.drop p)).take 14 :=
      text_eq_self fun c hc => ne_zero_of_mem_text (List.mem_of_mem_take hc)
    rw [Prints, printed, stringAt_eq]
    by_cases hnul : 0 ∈ memory.drop p
    · rw [if_pos hnul]
      constructor
      · rintro ⟨-, hs⟩
        exact ⟨_, rfl, htext.trans hs⟩
      · rintro ⟨t, ht, hs⟩
        cases ht
        exact ⟨hnul, htext.symm.trans hs⟩
    · rw [if_neg hnul]
      refine iff_of_false (fun h => hnul h.1) ?_
      rintro ⟨t, ht, -⟩
      cases ht

/-- The names that are printed. -/
theorem printNames_some_iff {group : Option Nat} {server : Nat} {name : Bytes} {groupText : Bytes} :
    (∃ ret', printNames nullText memory group ret (some server) = .ok ret' ∧
        ret'.name.str = name ∧ ret'.group.str = groupText) ↔
      Prints nullText memory name (some server) ∧ Prints nullText memory groupText group := by
  rw [prints_iff, prints_iff]
  constructor
  · rintro ⟨ret', hprint, hname, hgroup⟩
    obtain ⟨t, ht, hprint⟩ := ok_of_bind hprint
    obtain ⟨retName, hstore, hprint⟩ := ok_of_bind hprint
    obtain ⟨u, hu, hprint⟩ := ok_of_bind hprint
    obtain ⟨retGroup, hstore', hprint⟩ := ok_of_bind hprint
    cases hprint
    obtain ⟨a, ha, hstr⟩ := ret.name.exists_snprintf t
    obtain ⟨b, hb, hstr'⟩ := ret.group.exists_snprintf u
    cases hstore.symm.trans ha
    cases hstore'.symm.trans hb
    exact ⟨⟨t, ht, hstr.symm.trans hname⟩, ⟨u, hu, hstr'.symm.trans hgroup⟩⟩
  · rintro ⟨⟨t, ht, hname⟩, ⟨u, hu, hgroup⟩⟩
    obtain ⟨retName, hstore, hstr⟩ := ret.name.exists_snprintf t
    obtain ⟨retGroup, hstore', hstr'⟩ := ret.group.exists_snprintf u
    refine ⟨{ ret with name := retName, group := retGroup }, ?_, hstr.trans hname,
      hstr'.trans hgroup⟩
    simp only [printNames, ht, hstore, hu, hstore', bind, Except.bind, pure, Except.pure]

/-! ## The entries that are picked -/

theorem flagWord_group (datagram : Bytes) (p : Nat) :
    MarksGroup datagram p ↔ 128 ≤ byteOf datagram (p + 16) := by
  have hlow := (byteOf datagram (p + 17)).toNat_lt
  have hle : 128 ≤ byteOf datagram (p + 16) ↔ 128 ≤ (byteOf datagram (p + 16)).toNat := Iff.rfl
  rw [MarksGroup, flagWord, hle]
  omega

/-- A file server by both bytes of its flags is one by its flag word. -/
theorem MarksGroup.isGroup (h : MarksGroup datagram p) : IsGroup datagram p :=
  .inl ((flagWord_group datagram p).mp h)

theorem IsFileServer.marksServer (h : IsFileServer datagram p) : MarksServer datagram p :=
  ⟨fun hgroup => h.1 hgroup.isGroup, h.2⟩

/-- The entries of an answer are in the datagram. -/
theorem Accepted.entry_le (h : Accepted transationID datagram behind)
    (hp : p ∈ entries 0 (nameCount datagram)) : p + 18 ≤ datagram.length := by
  obtain ⟨i, hi, rfl⟩ := List.mem_map.mp hp
  have hlt := (List.mem_range'_1.mp hi).2
  have hlen := h.names_le
  omega

theorem isGroup_memory (hp : p + 18 ≤ datagram.length) :
    IsGroup (datagram ++ behind) p ↔ IsGroup datagram p := by
  rw [IsGroup, IsGroup, byteOf_memory (by omega), byteOf_memory (by omega)]

theorem isFileServer_memory (hp : p + 18 ≤ datagram.length) :
    IsFileServer (datagram ++ behind) p ↔ IsFileServer datagram p := by
  rw [IsFileServer, IsFileServer, isGroup_memory hp, byteOf_memory (by omega)]

theorem Accepted.firstGroup_memory (h : Accepted transationID datagram behind) :
    firstGroup (datagram ++ behind) = firstGroup datagram := by
  rw [firstGroup, firstGroup, nameCount_memory h.data_lt]
  refine List.find?_congr fun p hp => ?_
  rw [decide_eq_decide]
  exact isGroup_memory (h.entry_le hp)

theorem Accepted.firstFileServer_memory (h : Accepted transationID datagram behind) :
    firstFileServer (datagram ++ behind) = firstFileServer datagram := by
  rw [firstFileServer, firstFileServer, nameCount_memory h.data_lt]
  refine List.find?_congr fun p hp => ?_
  rw [decide_eq_decide]
  exact isFileServer_memory (h.entry_le hp)

/-- Without a file server entry none is found. -/
theorem firstFileServer_eq_none (h : announcedServer datagram = none) :
    firstFileServer datagram = none := by
  rw [announcedServer, List.find?_eq_none] at h
  rw [firstFileServer, List.find?_eq_none]
  intro p hp hserver
  refine h p hp (decide_eq_true ?_)
  exact IsFileServer.marksServer (of_decide_eq_true hserver)

/-- No text is that of every array. -/
theorem exists_name_ne (s : Bytes) : ∃ a : CharArray 15, a.str ≠ s := by
  by_cases hs : s = []
  · refine ⟨.ofBytes 15 [120], ?_⟩
    rw [hs, CharArray.str_ofBytes (by decide) (List.forall_mem_ne'.mpr (by decide))]
    exact List.cons_ne_nil _ _
  · refine ⟨.zero 15, ?_⟩
    rw [CharArray.str_zero]
    exact fun h => hs h.symm

/-- What becomes of the two names, whatever is done with the unit id. -/
theorem Accepted.names_iff (h : Accepted transationID datagram behind)
    (nullText : Except Fault Bytes) (ret : NetbiosQueryAns)
    {P : CharArray 15 → CharArray 15 → Prop} :
    (∃ ret', handleAns nullText transationID (datagram ++ behind) datagram.length ret =
        .ok (0, ret') ∧ P ret'.name ret'.group) ↔
      ∃ ret', printNames nullText (datagram ++ behind) (firstGroup datagram) ret
        (firstFileServer datagram) = .ok ret' ∧ P ret'.name ret'.group := by
  rw [handleAns_names h.data_lt h.identification h.names_le, h.firstGroup_memory,
    h.firstFileServer_memory]
  constructor
  · rintro ⟨ret', hok, hnames⟩
    obtain ⟨printedRet, hprint, hok⟩ := ok_of_bind hok
    obtain ⟨unitId, -, hok⟩ := ok_of_bind hok
    cases hok
    exact ⟨printedRet, hprint, hnames⟩
  · rintro ⟨ret', hprint, hnames⟩
    have hunit := h.unitId_le
    obtain ⟨unitId, hcopy, -⟩ := copyUnitId_eq ret'.unitId (Nat.le_refl 6)
      (show netbiosData + nameCount datagram * 18 + 0 + 6 ≤ (datagram ++ behind).length by omega)
    refine ⟨{ ret' with unitId := unitId }, ?_, hnames⟩
    simp only [hprint, hcopy, bind, Except.bind, pure, Except.pure]

/-! ## Which names are picked -/

/-- Without a file server the names are left as they were. -/
theorem picksNames_of_no_server (h : Accepted transationID datagram behind)
    (hserver : announcedServer datagram = none) :
    PicksNames nullText transationID datagram behind := by
  intro ret
  rw [hserver]
  refine (h.names_iff nullText ret (P := fun name group => name = ret.name ∧ group = ret.group)).mpr ?_
  rw [firstFileServer_eq_none hserver]
  exact ⟨ret, rfl, rfl, rfl⟩

section Server

variable {q : Nat} (h : Accepted transationID datagram behind)
  (hserver : announcedServer datagram = some p)

include h hserver

theorem picksNames_iff_printed :
    PicksNames nullText transationID datagram behind ↔
      ∀ ret, ∃ ret', printNames nullText (datagram ++ behind) (firstGroup datagram) ret
        (firstFileServer datagram) = .ok ret' ∧
          ret'.name.str = entryName datagram p ∧ ret'.group.str = groupName datagram := by
  unfold PicksNames
  rw [hserver]
  exact forall_congr' fun ret => h.names_iff nullText ret
    (P := fun name group => name.str = entryName datagram p ∧ group.str = groupName datagram)

/-- A file server that is not found: the caller's name is left as it was. -/
theorem not_picksNames_of_not_found (hfound : firstFileServer datagram = none) :
    ¬PicksNames nullText transationID datagram behind := by
  rw [picksNames_iff_printed h hserver, hfound]
  intro hpicks
  obtain ⟨name, hname⟩ := exists_name_ne (entryName datagram p)
  obtain ⟨ret', hprint, hstr, -⟩ := hpicks ⟨.zero 20, name, .zero 15, .zero 6⟩
  cases hprint
  exact hname hstr

theorem picksNames_iff_of_found (hfound : firstFileServer datagram = some q) :
    PicksNames nullText transationID datagram behind ↔
      Prints nullText (datagram ++ behind) (entryName datagram p) (some q) ∧
        Prints nullText (datagram ++ behind) (groupName datagram) (firstGroup datagram) := by
  rw [picksNames_iff_printed h hserver, hfound]
  constructor
  · intro hpicks
    exact printNames_some_iff.mp (hpicks ⟨.zero 20, .zero 15, .zero 15, .zero 6⟩)
  · intro hprints ret
    exact printNames_some_iff.mpr hprints

end Server

/-- **When `handle_ans` picks the right names**: if the answer has a file server entry, then there is
one with both bytes of its flags below 0x80, and the first of these prints as the first of those; and
the first entry with a byte of its flags from 0x80 on prints as the first group entry, or NULL prints
as nothing where there is none. -/
theorem picksNames_iff (h : Accepted transationID datagram behind) :
    PicksNames nullText transationID datagram behind ↔
      ∀ p, announcedServer datagram = some p →
        (∃ q, firstFileServer datagram = some q ∧
          Prints nullText (datagram ++ behind) (entryName datagram p) (some q)) ∧
        Prints nullText (datagram ++ behind) (groupName datagram) (firstGroup datagram) := by
  cases hserver : announcedServer datagram with
  | none => exact iff_of_true (picksNames_of_no_server h hserver) fun p hp => (by cases hp)
  | some p =>
    simp only [Option.some.injEq, forall_eq']
    cases hfound : firstFileServer datagram with
    | none =>
      refine iff_of_false (not_picksNames_of_not_found h hserver hfound) ?_
      rintro ⟨⟨q, hq, -⟩, -⟩
      cases hq
    | some q =>
      rw [picksNames_iff_of_found h hserver hfound]
      simp only [Option.some.injEq, exists_eq_left']

/-- An answer to the query 0 with these entries, and a unit id of zeros. -/
def answerWith (entries : List Bytes) : Bytes :=
  List.replicate netbiosNumber 0 ++ [entries.length.toUInt8] ++ entries.flatten ++ List.replicate 6 0

/-- An entry with a name of up to 15 bytes. -/
def entryWith (name : Bytes) (type high low : UInt8) : Bytes := resize name 15 ++ [type, high, low]

/-- A file server and its group. -/
theorem picksNames_group : PicksNames (.ok (ascii "(null)")) 0
    (answerWith [entryWith (ascii "HOST") 0x20 0x04 0, entryWith (ascii "WORK") 0 0x84 0]) [] := by
  refine (picksNames_iff ⟨by decide, by decide, by decide, by decide⟩).mpr fun p hp => ?_
  have hserver : announcedServer (answerWith [entryWith (ascii "HOST") 0x20 0x04 0,
      entryWith (ascii "WORK") 0 0x84 0]) = some 57 := by decide
  cases hserver.symm.trans hp
  exact ⟨⟨57, by decide, by decide, by decide⟩, by decide, by decide⟩

/-- A file server without a group: what is printed for NULL becomes its group. -/
theorem picksNames_no_group : ¬PicksNames (.ok (ascii "(null)")) 0
    (answerWith [entryWith (ascii "HOST") 0x20 0x04 0]) [] := by
  intro h
  obtain ⟨ret', hok, hnames⟩ := h ⟨.zero 20, .zero 15, .zero 15, .zero 6⟩
  have hresult : handleAns (.ok (ascii "(null)")) 0
      (answerWith [entryWith (ascii "HOST") 0x20 0x04 0] ++ [])
      (answerWith [entryWith (ascii "HOST") 0x20 0x04 0]).length
      ⟨.zero 20, .zero 15, .zero 15, .zero 6⟩ = .ok (0, ⟨.zero 20, .ofBytes 15 (ascii "HOST"),
        .ofBytes 15 (ascii "(null)"), .zero 6⟩) := by decide
  cases hresult.symm.trans hok
  have hserver : announcedServer (answerWith [entryWith (ascii "HOST") 0x20 0x04 0]) = some 57 := by
    decide
  rw [hserver] at hnames
  exact absurd hnames.2 (by decide)

end Names

end Sails.Net
