import Sails.Library.KeyedRows
import Sails.Net.Http.Request

/-!
# `SetHeader` and `SetBody` on any record

The arrays of a record need not be zeroed behind its texts: what counts is the strings in the first
`num_headers` rows.

- `HoldsRows`: the strings of a record's headers
- `setHeader_holds`: one call of `SetHeader`
- `header_map`: the calls of `SetHeader` write a table whose names are not told apart by letter case
- `setBody_iff`: the lengths for which `SetBody` is safe
-/

namespace Sails.Net

open TransitionRun
open CMemory
open Sails.Base

/-! ## Strings in arrays -/

theorem snprintf_holds {n : Nat} {s : Bytes} (h : IsText n s) (a : CharArray n) :
    ∃ a', a.snprintf s = .ok a' ∧ a'.str = s ∧ a'.Terminated := by
  have hlt := h.1
  have htake : s.take (n - 1) = s := List.take_of_length_le (by omega)
  obtain ⟨a', hstore, -⟩ := CharArray.store_eq_ok a 0 (s ++ [0]) (by simp; omega)
  have hstr := CharArray.str_of_store hstore (Nat.zero_le n) (by simp) h.2
  rw [List.take_zero, List.nil_append] at hstr
  exact ⟨a', by rw [CharArray.snprintf, htake, hstore], hstr⟩

/-- The header holds these two strings. -/
structure Header.Holds (h : Header) (row : Bytes × Bytes) : Prop where
  name : h.name.str = row.1
  name_terminated : h.name.Terminated
  value : h.value.str = row.2
  value_terminated : h.value.Terminated

/-- The headers of the record hold these rows. -/
structure HoldsRows (m : HttpMessage) (rows : List (Bytes × Bytes)) : Prop where
  count : m.numHeaders = rows.length
  length_le : rows.length ≤ maxHeaders
  row : ∀ (i : Fin maxHeaders) r, rows[(i : Nat)]? = some r → (m.headers i).Holds r

theorem holdsRows_nil {m : HttpMessage} (h : m.numHeaders = 0) : HoldsRows m [] where
  count := h
  length_le := Nat.zero_le _
  row := fun i r hr => by cases hr

theorem HoldsRows.set {m : HttpMessage} {rows : List (Bytes × Bytes)} (h : HoldsRows m rows)
    (i : Fin maxHeaders) {header : Header} {r : Bytes × Bytes} (hr : header.Holds r) :
    HoldsRows { m with headers := Function.update m.headers i header } (rows.set i r) where
  count := by rw [List.length_set]; exact h.count
  length_le := by rw [List.length_set]; exact h.length_le
  row := by
    intro j r' hj
    rw [List.getElem?_set] at hj
    dsimp only
    -- the row that is written, or another one
    by_cases hij : j = i
    · subst hij
      simp only [if_true] at hj
      split at hj
      · cases hj
        rw [Function.update_self]
        exact hr
      · cases hj
    · rw [if_neg (fun heq => hij (Fin.ext heq.symm))] at hj
      rw [Function.update_of_ne hij]
      exact h.row j r' hj

/-! ## One call of `SetHeader` -/

/-- The loop changes the rows of the name and no others. -/
theorem replaceHeader_holds (key : Bytes) {value : Bytes} (hvalue : IsText maxElementSize value)
    (done rest : List (Bytes × Bytes)) (m : HttpMessage) (h : HoldsRows m (done ++ rest)) :
    ∃ m', replaceHeader key value m done.length rest.length =
        .ok (m', rest.any fun r => SameName r.1 key) ∧
      HoldsRows m' (done ++ rest.map fun r => if SameName r.1 key then (r.1, value) else r) ∧
      m' = { m with headers := m'.headers } ∧
      ∀ i, ¬ SameName (m.headers i).name.str key → m'.headers i = m.headers i := by
  -- the loop has passed `done`; by induction on the rows still to come
  induction rest generalizing done m with
  | nil => exact ⟨m, rfl, h, rfl, fun _ _ => rfl⟩
  | cons x rest ih =>
    have hlt : done.length < maxHeaders := by
      have hle := h.length_le
      simp only [List.length_append, List.length_cons] at hle
      omega
    have hx := h.row ⟨done.length, hlt⟩ x (by simp)
    have hreassoc : done ++ [x] ++ rest = done ++ x :: rest := by simp
    by_cases hsame : SameName x.1 key
    · obtain ⟨text, htext, hstr, hterm⟩ := snprintf_holds hvalue (.zero maxElementSize)
      have hheader : Header.Holds { m.headers ⟨done.length, hlt⟩ with value := text } (x.1, value) :=
        ⟨hx.name, hx.name_terminated, hstr, hterm⟩
      have hset := h.set ⟨done.length, hlt⟩ hheader
      have hrows : (done ++ x :: rest).set done.length (x.1, value) = done ++ [(x.1, value)] ++ rest := by
        rw [List.set_append_right _ _ le_rfl, Nat.sub_self, List.append_assoc]
        rfl
      rw [hrows] at hset
      obtain ⟨m', hrest, hholds, hframe, hkeep⟩ := ih (done ++ [(x.1, value)]) _ hset
      rw [List.length_append, List.length_singleton] at hrest
      refine ⟨m', ?_, ?_, hframe, ?_⟩
      · simp only [List.length_cons, replaceHeader, dif_pos hlt, hx.name, if_pos hsame, htext, hrest,
          bind, Except.bind]
        simp [hsame]
      · simpa [hsame] using hholds
      -- the row just written has the name, so no row of another name is it
      · intro i hne
        have hi : i ≠ ⟨done.length, hlt⟩ := by
          rintro rfl
          exact hne (hx.name ▸ hsame)
        have hkeep_i := hkeep i
        simp only [Function.update_of_ne hi] at hkeep_i
        exact hkeep_i hne
    -- a row of another name is passed over
    · obtain ⟨m', hrest, hholds, hframe, hkeep⟩ := ih (done ++ [x]) m (hreassoc ▸ h)
      rw [List.length_append, List.length_singleton] at hrest
      refine ⟨m', ?_, ?_, hframe, hkeep⟩
      · simp only [List.length_cons, replaceHeader, dif_pos hlt, hx.name, if_neg hsame, hrest]
        simp [hsame]
      · simpa [hsame] using hholds

theorem addHeader_holds {m : HttpMessage} {rows : List (Bytes × Bytes)} (h : HoldsRows m rows)
    (hlt : rows.length < maxHeaders) {key value : Bytes} (hkey : IsText maxElementSize key)
    (hvalue : IsText maxElementSize value) :
    ∃ m', addHeader m key value = .ok m' ∧ HoldsRows m' (rows ++ [(key, value)]) ∧
      m' = { m with numHeaders := m'.numHeaders, headers := m'.headers } ∧
      ∀ i : Fin maxHeaders, (i : Nat) < rows.length → m'.headers i = m.headers i := by
  -- the source counts the header first and writes at `num_headers - 1`
  have hindex : m.numHeaders + 1 - 1 = (rows.length : Int) := by rw [h.count]; omega
  obtain ⟨name, hname, hnameStr, hnameTerm⟩ := snprintf_holds hkey (m.headers ⟨rows.length, hlt⟩).name
  obtain ⟨text, htext, htextStr, htextTerm⟩ :=
    snprintf_holds hvalue (m.headers ⟨rows.length, hlt⟩).value
  refine ⟨{ m with
    numHeaders := m.numHeaders + 1
    headers := Function.update m.headers ⟨rows.length, hlt⟩ ⟨name, text⟩ }, ?_, ?_, rfl, ?_⟩
  · simp only [addHeader, hindex, headerAt_natCast hlt, hname, htext, bind, Except.bind]
  · refine ⟨?_, ?_, ?_⟩
    · simp [h.count]
    · rw [List.length_append]
      exact hlt
    · intro i r hr
      dsimp only
      -- the new row is the last one
      by_cases hi : i = ⟨rows.length, hlt⟩
      · subst hi
        rw [List.getElem?_concat_length] at hr
        cases hr
        rw [Function.update_self]
        exact ⟨hnameStr, hnameTerm, htextStr, htextTerm⟩
      · have hlen := (List.getElem?_eq_some_iff.mp hr).1
        have hne : (i : Nat) ≠ rows.length := fun heq => hi (Fin.ext heq)
        rw [List.length_append, List.length_singleton] at hlen
        rw [List.getElem?_append_left (by omega)] at hr
        rw [Function.update_of_ne hi]
        exact h.row i r hr
  · intro i hi
    exact Function.update_of_ne (fun heq => hi.ne (congrArg Fin.val heq)) _ _

/-- Names count as the same when they differ in letter case only. -/
abbrev putName (rows : List (Bytes × Bytes)) (key value : Bytes) : List (Bytes × Bytes) :=
  KeyedRows.put (List.map toLower) rows key value

/-- **`SetHeader`** writes a value under a name, and touches no row of another name. -/
theorem setHeader_holds {m : HttpMessage} {rows : List (Bytes × Bytes)} (h : HoldsRows m rows)
    {key value : Bytes} (hne : key ≠ []) (hkey : IsText maxElementSize key)
    (hvalue : IsText maxElementSize value) (hle : (putName rows key value).length ≤ maxHeaders) :
    ∃ m', setHeader m (some key) (some value) = .ok m' ∧ HoldsRows m' (putName rows key value) ∧
      m' = { m with numHeaders := m'.numHeaders, headers := m'.headers } ∧
      ∀ i : Fin maxHeaders, (i : Nat) < rows.length → ¬ SameName (m.headers i).name.str key →
        m'.headers i = m.headers i := by
  have hpos : key.length > 0 := List.length_pos_iff.mpr hne
  have hcount : m.numHeaders.toNat = rows.length := by rw [h.count, Int.toNat_natCast]
  obtain ⟨m₁, hloop, hholds, hframe, hkeep⟩ := replaceHeader_holds key hvalue [] rows m h
  rw [List.length_nil] at hloop
  rw [List.nil_append] at hholds
  have hput : putName rows key value =
      if rows.any fun r => SameName r.1 key then
        rows.map fun r => if SameName r.1 key then (r.1, value) else r
      else rows ++ [(key, value)] := rfl
  -- the loop has written the value, or found no row of the name
  by_cases hany : (rows.any fun r => SameName r.1 key) = true
  · rw [hput, if_pos hany]
    refine ⟨m₁, ?_, hholds, ?_, fun i _ hother => hkeep i hother⟩
    · simp only [setHeader, if_pos hpos, hcount, hloop, hany, if_true, bind, Except.bind]
    · rw [hframe]
  · rw [map_eq_self_of_not_any value hany] at hholds
    rw [hput, if_neg hany, List.length_append, List.length_singleton] at hle
    obtain ⟨m', hadd, hholds', hframe', hkeep'⟩ :=
      addHeader_holds hholds (Nat.lt_of_succ_le hle) hkey hvalue
    rw [hput, if_neg hany]
    refine ⟨m', ?_, hholds', ?_, ?_⟩
    · simp only [setHeader, if_pos hpos, hcount, hloop, hany, Bool.false_eq_true, if_false, hadd, bind,
        Except.bind]
    · rw [hframe', hframe]
    · intro i hi hother
      rw [hkeep' i hi, hkeep i hother]

/-! ## Several calls -/

/-- A `SetHeader`. -/
abbrev HeaderSetter := HttpMessage → Option Bytes → Option Bytes → Except Fault HttpMessage

/-- Calls of it with these names and values. -/
def setAll (set : HeaderSetter) (m : HttpMessage) (calls : List (Bytes × Bytes)) :
    Except Fault HttpMessage :=
  calls.foldlM (fun m call => set m (some call.1) (some call.2)) m

/-- The table these names and values make. -/
def headerMap (calls : List (Bytes × Bytes)) : List (Bytes × Bytes) :=
  KeyedRows.puts (List.map toLower) calls

/-- The names that differ in more than letter case. -/
def distinctNames (calls : List (Bytes × Bytes)) : List Bytes :=
  (calls.map fun call => call.1.map toLower).dedup

/-- What is wanted of these calls on a record without headers. -/
structure UpdatesMap (set : HeaderSetter) (m : HttpMessage) (calls : List (Bytes × Bytes)) : Prop where
  /-- the calls succeed, and the rows are those of the table -/
  holds : ∃ m', setAll set m calls = .ok m' ∧ HoldsRows m' (headerMap calls)
  /-- one row a name -/
  one_row : (headerMap calls).Pairwise fun a b => ¬ SameName a.1 b.1
  named : ∀ name, (∃ r ∈ headerMap calls, SameName r.1 name) ↔ ∃ c ∈ calls, SameName c.1 name
  /-- in the order and with the spelling of the first calls -/
  in_order : (headerMap calls).map Prod.fst = KeyedRows.firstKeys (List.map toLower) calls
  last_value : ∀ r ∈ headerMap calls,
    KeyedRows.lastValue (List.map toLower) calls r.1 = some r.2
  /-- no call touches a row of another name -/
  keeps : ∀ before call after, calls = before ++ call :: after → ∃ m₁ m₂,
    setAll set m before = .ok m₁ ∧ set m₁ (some call.1) (some call.2) = .ok m₂ ∧
      ∀ i : Fin maxHeaders, (i : Int) < m₁.numHeaders → ¬ SameName (m₁.headers i).name.str call.1 →
        m₂.headers i = m₁.headers i

/-- The texts of a call fit their arrays, and the name is not empty. -/
structure FitsHeader (call : Bytes × Bytes) : Prop where
  name_ne : call.1 ≠ []
  name : IsText maxElementSize call.1
  value : IsText maxElementSize call.2

theorem length_headerMap_append_le (calls more : List (Bytes × Bytes)) :
    (headerMap calls).length ≤ (headerMap (calls ++ more)).length := by
  rw [headerMap, headerMap, KeyedRows.length_puts, KeyedRows.length_puts, List.map_append]
  refine (List.subperm_of_subset (List.nodup_dedup _) fun name hname => ?_).length_le
  exact List.mem_dedup.mpr (List.mem_append_left _ (List.mem_dedup.mp hname))

/-- **Run**: the rows after the calls are the table. -/
theorem setAll_holds {m : HttpMessage} (hm : m.numHeaders = 0) (calls : List (Bytes × Bytes))
    (hcalls : ∀ call ∈ calls, FitsHeader call) (hle : (headerMap calls).length ≤ maxHeaders) :
    ∃ m', setAll setHeader m calls = .ok m' ∧ HoldsRows m' (headerMap calls) := by
  induction calls using List.reverseRecOn with
  | nil => exact ⟨m, rfl, holdsRows_nil hm⟩
  | append_singleton calls call ih =>
    -- the last call meets the rows of the calls before it
    have hfits := hcalls call (by simp)
    obtain ⟨m₁, hrun, hholds⟩ := ih (fun c hc => hcalls c (List.mem_append_left _ hc))
      ((length_headerMap_append_le calls [call]).trans hle)
    rw [headerMap, KeyedRows.puts_concat] at hle ⊢
    obtain ⟨m₂, hset, hholds', -, -⟩ := setHeader_holds hholds hfits.name_ne hfits.name hfits.value hle
    refine ⟨m₂, ?_, hholds'⟩
    rw [setAll] at hrun ⊢
    rw [List.foldlM_append, hrun]
    exact (bind_pure _).trans hset

/-- The calls of the two copies are the same. -/
theorem setAll_eq_response {calls : List (Bytes × Bytes)} (hcalls : ∀ call ∈ calls, FitsHeader call)
    (m : HttpMessage) : setAll HttpRequest.setHeader m calls = setAll setHeader m calls := by
  induction calls generalizing m with
  | nil => rfl
  | cons call calls ih =>
    have hfits := hcalls call (List.mem_cons_self ..)
    have hrest : ∀ m, setAll HttpRequest.setHeader m calls = setAll setHeader m calls :=
      ih fun c hc => hcalls c (List.mem_cons_of_mem _ hc)
    rw [setAll, setAll, List.foldlM_cons, List.foldlM_cons,
      HttpRequest.setHeader_eq_response hfits.name hfits.value]
    exact congrArg (bind _) (funext hrest)

theorem updatesMap_response {m : HttpMessage} (hm : m.numHeaders = 0)
    {calls : List (Bytes × Bytes)} (hcalls : ∀ call ∈ calls, FitsHeader call)
    (hle : (distinctNames calls).length ≤ maxHeaders) : UpdatesMap setHeader m calls := by
  have hlen : (headerMap calls).length ≤ maxHeaders := by
    rw [headerMap, KeyedRows.length_puts]
    exact hle
  have hkeys : (headerMap calls).map Prod.fst = KeyedRows.firstKeys (List.map toLower) calls :=
    KeyedRows.keys_puts calls
  refine
    { holds := setAll_holds hm calls hcalls hlen
      one_row := ?_
      named := ?_
      in_order := hkeys
      last_value := fun r hr => KeyedRows.lastValue_of_mem_puts hr
      keeps := ?_ }
  -- one row a name: the keys of the rows are pairwise different
  · have hnodup : ((KeyedRows.firstKeys (List.map toLower) calls).map (List.map toLower)).Nodup :=
      KeyedRows.nodup_firstKeys calls
    rw [← hkeys, List.map_map] at hnodup
    exact List.pairwise_map.mp hnodup
  · intro name
    have hmem : name.map toLower ∈
        (KeyedRows.firstKeys (List.map toLower) calls).map (List.map toLower) ↔
        name.map toLower ∈ calls.map fun call => call.1.map toLower :=
      KeyedRows.mem_firstKeys calls (name.map toLower)
    rw [← hkeys, List.map_map, List.mem_map, List.mem_map] at hmem
    exact hmem
  · rintro before call after rfl
    have hfits := hcalls call (by simp)
    obtain ⟨m₁, hrun, hholds⟩ := setAll_holds hm before
      (fun c hc => hcalls c (List.mem_append_left _ hc))
      ((length_headerMap_append_le before _).trans hlen)
    -- the rows before the call and with it are no more than all of them
    have hnext : (headerMap (before ++ [call])).length ≤ maxHeaders := by
      refine le_trans ?_ hlen
      have hle := length_headerMap_append_le (before ++ [call]) after
      rwa [List.append_assoc, List.singleton_append] at hle
    rw [headerMap, KeyedRows.puts_concat] at hnext
    obtain ⟨m₂, hset, -, -, hkeep⟩ := setHeader_holds hholds hfits.name_ne hfits.name hfits.value hnext
    refine ⟨m₁, m₂, hrun, hset, fun i hi hother => hkeep i ?_ hother⟩
    rw [hholds.count] at hi
    exact Int.ofNat_lt.mp hi

/-- **`SetHeader` updates a map**: of a response and of a request, starting from a record without
headers, for all calls with texts that fit and at most `MAX_HEADERS` names up to letter case. -/
theorem header_map (m : HttpMessage) (hm : m.numHeaders = 0) (calls : List (Bytes × Bytes))
    (hcalls : ∀ call ∈ calls, FitsHeader call) (hle : (distinctNames calls).length ≤ maxHeaders) :
    UpdatesMap setHeader m calls ∧ UpdatesMap HttpRequest.setHeader m calls := by
  have hresponse := updatesMap_response hm hcalls hle
  -- the request differs in its calls of `snprintf` only
  refine ⟨hresponse, { hresponse with holds := ?_, keeps := ?_ }⟩
  · rw [setAll_eq_response hcalls]
    exact hresponse.holds
  · intro before call after hsplit
    obtain ⟨m₁, m₂, hrun, hset, hkeep⟩ := hresponse.keeps before call after hsplit
    have hfits := hcalls call (by simp [hsplit])
    refine ⟨m₁, m₂, ?_, ?_, hkeep⟩
    · rw [setAll_eq_response fun c hc => hcalls c (by simp [hsplit, hc])]
      exact hrun
    · rw [HttpRequest.setHeader_eq_response hfits.name hfits.value]
      exact hset

/-- A name is set twice, the second time in capitals. -/
theorem header_map_host :
    UpdatesMap setHeader .init [(ascii "Host", ascii "a"), (ascii "Age", ascii "0"), (ascii "HOST", ascii "b")] ∧
      UpdatesMap HttpRequest.setHeader .init
        [(ascii "Host", ascii "a"), (ascii "Age", ascii "0"), (ascii "HOST", ascii "b")] := by
  refine header_map .init rfl _ ?_ (by decide +kernel)
  intro call hcall
  simp only [List.mem_cons, List.not_mem_nil, or_false] at hcall
  rcases hcall with rfl | rfl | rfl <;> exact ⟨by decide, by decide, by decide⟩

/-! ## `SetBody` -/

/-- What `snprintf` leaves is a text of its array. -/
theorem isText_of_snprintf {n k : Nat} (hk : n ≤ k) {a a' : CharArray n} {s : Bytes}
    (h : a.snprintf s = .ok a') : IsText k a'.str :=
  ⟨(CharArray.terminated_of_store h (by simp)).trans_le hk, fun _ hc => ne_zero_of_mem_text hc⟩

/-- **The two `SetBody`s agree.** -/
theorem HttpRequest.setBody_eq_response (m : HttpMessage) (body : Bytes) (len : Int) :
    HttpRequest.setBody m body len = Net.setBody m body len := by
  have hset : ∀ m (a : CharArray 11), (CharArray.zero 11).snprintf (decimal (len % 2 ^ 64).toNat) =
      .ok a → HttpRequest.setHeader m (some (ascii "Content-Length")) (some a.str) =
        Net.setHeader m (some (ascii "Content-Length")) (some a.str) := by
    intro m a hprint
    have hvalue : IsText maxElementSize a.str := isText_of_snprintf (by decide) hprint
    exact HttpRequest.setHeader_eq_response Response.isText_contentLength hvalue m
  simp only [HttpRequest.setBody, Net.setBody]
  -- the two copies fail at the same places: the read, the body, the decimal
  by_cases hread : (len % 2 ^ 64).toNat ≤ body.length
  · cases hstore : (CharArray.zero maxBodySize).store 0 (body.take (len % 2 ^ 64).toNat) with
    | error e => simp only [if_pos hread, hstore, bind, Except.bind]
    | ok stored =>
      cases hprint : (CharArray.zero 11).snprintf (decimal (len % 2 ^ 64).toNat) with
      | error e => simp only [if_pos hread, hstore, bind, Except.bind]
      | ok a => simp only [if_pos hread, hstore, hset _ a hprint, bind, Except.bind]
  · simp only [if_neg hread, bind, Except.bind]

/-- What is wanted of a result of `SetBody`: the message is left alone and 1 returned, or 0 is
returned and the message has this body, its length, and its length in `Content-Length`. -/
def SetsBody (m : HttpMessage) (body : Bytes) (len : Int)
    (result : Except Fault (HttpMessage × Int)) : Prop :=
  result = .ok (m, 1) ∨
    ∃ m' rows, result = .ok (m', 0) ∧ 0 ≤ len ∧ len ≤ maxBodySize ∧ (m'.bodySize : Int) = len ∧
      m'.body.bytes.take len.toNat = body.take len.toNat ∧ HoldsRows m' rows ∧
      (∃ r ∈ rows, SameName r.1 (ascii "Content-Length")) ∧
      ∀ r ∈ rows, SameName r.1 (ascii "Content-Length") → r.2 = decimal len.toNat

/-- There is a row for the length, or room for one. -/
def RoomForLength (rows : List (Bytes × Bytes)) : Prop :=
  (∃ r ∈ rows, SameName r.1 (ascii "Content-Length")) ∨ rows.length < maxHeaders

/-- The rows after a value was written under a name. -/
theorem mem_putName {rows : List (Bytes × Bytes)} {key value : Bytes} {r : Bytes × Bytes}
    (h : r ∈ putName rows key value) (hsame : SameName r.1 key) : r.2 = value := by
  rw [putName, KeyedRows.put] at h
  -- a row was changed, or one was added at the end
  split at h
  · obtain ⟨r', -, rfl⟩ := List.mem_map.mp h
    by_cases hr' : SameName r'.1 key
    · exact congrArg Prod.snd (if_pos hr')
    · have hsame' : SameName (if SameName r'.1 key then (r'.1, value) else r').1 key := hsame
      rw [if_neg hr'] at hsame'
      exact absurd hsame' hr'
  · rename_i hnew
    rcases List.mem_append.mp h with hold | hlast
    · exact absurd (List.any_eq_true.mpr ⟨r, hold, decide_eq_true hsame⟩) hnew
    · rw [List.mem_singleton.mp hlast]

theorem exists_mem_putName (rows : List (Bytes × Bytes)) (key value : Bytes) :
    ∃ r ∈ putName rows key value, SameName r.1 key := by
  rw [putName, KeyedRows.put]
  split
  · rename_i hany
    obtain ⟨r, hr, hsame⟩ := List.any_eq_true.mp hany
    exact ⟨(r.1, value), List.mem_map.mpr ⟨r, hr, if_pos (of_decide_eq_true hsame)⟩,
      of_decide_eq_true hsame⟩
  · exact ⟨(key, value), by simp, rfl⟩

theorem length_putName_le_iff {rows : List (Bytes × Bytes)} (h : rows.length ≤ maxHeaders)
    (value : Bytes) :
    (putName rows (ascii "Content-Length") value).length ≤ maxHeaders ↔ RoomForLength rows := by
  rw [putName, KeyedRows.put]
  split
  · rename_i hany
    obtain ⟨r, hr, hsame⟩ := List.any_eq_true.mp hany
    rw [List.length_map]
    exact iff_of_true h (.inl ⟨r, hr, of_decide_eq_true hsame⟩)
  · rename_i hnew
    rw [List.length_append, List.length_singleton]
    constructor
    · exact fun hlt => .inr hlt
    · rintro (⟨r, hr, hsame⟩ | hlt)
      · exact absurd (List.any_eq_true.mpr ⟨r, hr, decide_eq_true hsame⟩) hnew
      · exact hlt

/-- Without room `SetHeader` writes behind the last header. -/
theorem setHeader_full {m : HttpMessage} {rows : List (Bytes × Bytes)} (h : HoldsRows m rows)
    {value : Bytes} (hvalue : IsText maxElementSize value) (hroom : ¬ RoomForLength rows) :
    setHeader m (some (ascii "Content-Length")) (some value) = .error .outOfBounds := by
  have hpos : (ascii "Content-Length").length > 0 := by decide
  have hcount : m.numHeaders.toNat = rows.length := by rw [h.count, Int.toNat_natCast]
  have hfull : rows.length = maxHeaders :=
    le_antisymm h.length_le (Nat.le_of_not_lt fun hlt => hroom (.inr hlt))
  have hnew : ¬ (rows.any fun r => SameName r.1 (ascii "Content-Length")) = true := by
    intro hany
    obtain ⟨r, hr, hsame⟩ := List.any_eq_true.mp hany
    exact hroom (.inl ⟨r, hr, of_decide_eq_true hsame⟩)
  obtain ⟨m₁, hloop, hholds, -, -⟩ :=
    replaceHeader_holds (ascii "Content-Length") hvalue [] rows m h
  rw [List.nil_append, map_eq_self_of_not_any value hnew] at hholds
  rw [List.length_nil] at hloop
  -- `num_headers - 1` is `MAX_HEADERS` when the new header is written
  have hat : headerAt (m₁.numHeaders + 1 - 1) = .error .outOfBounds := by
    rw [hholds.count, hfull]
    rfl
  simp only [setHeader, if_pos hpos, hcount, hloop, hnew, Bool.false_eq_true, if_false, addHeader, hat,
    bind, Except.bind]

/-- `SetBody` with a length the body array can hold. -/
theorem setBody_of_le {m : HttpMessage} {body : Bytes} {len : Nat} (hle : len ≤ maxBodySize)
    (hbody : len ≤ body.length) :
    setBody m body len = (do
      let m ← setHeader { m with body := .ofBytes _ (body.take len), bodySize := len }
        (some (ascii "Content-Length")) (some (decimal len))
      .ok (m, 0)) := by
  have hdecimal := Response.isText_decimal hle
  have hsize : ((len : Int) % 2 ^ 64).toNat = len := by
    have hmax : maxBodySize = 20480 := rfl
    omega
  have hsmall : ¬ (len : Int) > maxBodySize := by omega
  have hstore := CharArray.store_ofBytes (n := maxBodySize) (s := []) (t := body.take len)
    (by rw [List.length_nil, List.length_take, Nat.min_eq_left hbody]; omega)
  rw [CharArray.ofBytes_nil, List.nil_append, List.length_nil] at hstore
  simp only [setBody, if_neg hsmall, hsize, if_pos hbody, hstore, snprintf_text hdecimal,
    CharArray.str_ofBytes hdecimal.1 hdecimal.2, bind, Except.bind]

/-- A negative length becomes a size no array has. -/
theorem setBody_negative (m : HttpMessage) (body : Bytes) {len : Int} (hneg : len < 0)
    (hint : -2 ^ 31 ≤ len) : ∃ e, setBody m body len = .error e := by
  have hsmall : ¬ len > maxBodySize := by omega
  -- `memcpy` takes the `int` as a `size_t`
  have hhuge : maxBodySize < (len % 2 ^ 64).toNat := by
    have hmax : maxBodySize = 20480 := rfl
    omega
  rw [setBody, if_neg hsmall]
  by_cases hread : (len % 2 ^ 64).toNat ≤ body.length
  · have hstore : (CharArray.zero maxBodySize).store 0 (body.take (len % 2 ^ 64).toNat) =
        .error .outOfBounds := by
      rw [CharArray.store, dif_neg]
      rw [List.length_take, Nat.min_eq_left hread]
      omega
    exact ⟨.outOfBounds, by simp only [if_pos hread, hstore, bind, Except.bind]⟩
  · exact ⟨.outOfBounds, by simp only [if_neg hread, bind, Except.bind]⟩

theorem setBody_response_iff {m : HttpMessage} {rows : List (Bytes × Bytes)} (h : HoldsRows m rows)
    {body : Bytes} {len : Int} (hint : -2 ^ 31 ≤ len)
    (hbody : len ≤ maxBodySize → len ≤ body.length) :
    SetsBody m body len (setBody m body len) ↔ maxBodySize < len ∨ 0 ≤ len ∧ RoomForLength rows := by
  -- too long, negative, or a length the array can hold
  rcases lt_or_ge (maxBodySize : Int) len with hlarge | hle
  · exact iff_of_true (.inl (if_pos hlarge)) (.inl hlarge)
  · rcases lt_or_ge len 0 with hneg | hnonneg
    · obtain ⟨e, herror⟩ := setBody_negative m body hneg hint
      refine iff_of_false ?_ (by omega)
      rw [herror]
      rintro (hok | ⟨m', rows', hok, -⟩) <;> cases hok
    · obtain ⟨k, rfl⟩ := Int.eq_ofNat_of_zero_le hnonneg
      have hk : k ≤ maxBodySize := by omega
      have hread : k ≤ body.length := by have := hbody hle; omega
      have hdecimal := Response.isText_decimal hk
      have hvalue : IsText maxElementSize (decimal k) :=
        ⟨hdecimal.1.trans (by decide), hdecimal.2⟩
      -- the body array is no header
      have hholds : HoldsRows { m with body := .ofBytes _ (body.take k), bodySize := k } rows :=
        ⟨h.count, h.length_le, h.row⟩
      rw [setBody_of_le hk hread]
      by_cases hroom : RoomForLength rows
      · refine iff_of_true ?_ (.inr ⟨hnonneg, hroom⟩)
        obtain ⟨m', hset, hrows, hframe, -⟩ := setHeader_holds hholds (by decide)
          Response.isText_contentLength hvalue ((length_putName_le_iff h.length_le _).mpr hroom)
        refine .inr ⟨m', _, by rw [hset]; rfl, hnonneg, hle, ?_, ?_, hrows,
          exists_mem_putName _ _ _, fun r hr hsame => mem_putName hr hsame⟩
        · rw [hframe]
        · rw [hframe]
          have htake := CharArray.take_ofBytes (n := maxBodySize) (s := body.take k)
            (by rw [List.length_take]; omega)
          rwa [List.length_take, Nat.min_eq_left hread] at htake
      · refine iff_of_false ?_ (by simp only [hroom, and_false, or_false]; omega)
        rw [setHeader_full hholds hvalue hroom]
        rintro (hok | ⟨m', rows', hok, -⟩) <;> cases hok

/-- **Lengths of a body**: on a record that holds some rows, with an `int` as length and that many
bytes to read, `SetBody` of a response and of a request do what is wanted exactly when the length is
greater than `MAX_BODY_SIZE`, or not negative with a row or room for `Content-Length`. -/
theorem setBody_iff (m : HttpMessage) (rows : List (Bytes × Bytes)) (h : HoldsRows m rows)
    (body : Bytes) (len : Int) (hint : -2 ^ 31 ≤ len)
    (hbody : len ≤ maxBodySize → len ≤ body.length) :
    (SetsBody m body len (setBody m body len) ↔
        maxBodySize < len ∨ 0 ≤ len ∧ RoomForLength rows) ∧
      (SetsBody m body len (HttpRequest.setBody m body len) ↔
        maxBodySize < len ∨ 0 ≤ len ∧ RoomForLength rows) := by
  rw [HttpRequest.setBody_eq_response]
  exact ⟨setBody_response_iff h hint hbody, setBody_response_iff h hint hbody⟩

theorem setBody_iff_hi :
    (SetsBody .init (ascii "hi") 2 (setBody .init (ascii "hi") 2) ↔
        maxBodySize < (2 : Int) ∨ 0 ≤ (2 : Int) ∧ RoomForLength []) ∧
      (SetsBody .init (ascii "hi") 2 (HttpRequest.setBody .init (ascii "hi") 2) ↔
        maxBodySize < (2 : Int) ∨ 0 ≤ (2 : Int) ∧ RoomForLength []) :=
  setBody_iff .init [] (holdsRows_nil rfl) (ascii "hi") 2 (by decide) fun _ => by decide

/-- A `read` that failed: the length -1 is 2^64 - 1 as a `size_t`. -/
theorem setBody_failed_read :
    setBody .init (ascii "hi") (-1) = .error .outOfBounds ∧
      ¬ SetsBody .init (ascii "hi") (-1) (setBody .init (ascii "hi") (-1)) := by
  refine ⟨rfl, ?_⟩
  rintro (hok | ⟨m', rows', hok, -⟩) <;> cases hok

end Sails.Net
