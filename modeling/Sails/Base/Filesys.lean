import Sails.Library.LexicalPath
import Sails.Library.Tokens
import Sails.Base.UrlCoding

/-!
# `make_directory` (`base/filesys.cc`)

- `FileTree`: the directories there are, with `access` and `mkdir`
- `makeDirectory`: the loop over the prefixes of a path that end with a slash
- `FileTree.HasPath`: a directory and all those on the way to it exist
- `makesDirectory_iff`: when the value returned can be trusted

`path_name` is meant to be the path with a slash at its end; where the path has none, the slash is
written to its front and there is no prefix left to make.
-/

namespace Sails.Base

open TransitionRun (Fault ok_of_bind)
open CMemory
open LexicalPath (slash)

/-! ## Directories -/

/-- The readable directories of a system without symbolic links, by the names that lead to them, the
innermost first. The top directory and the working directory always exist. -/
structure FileTree where
  cwd : List Bytes
  dirs : List (List Bytes)

namespace FileTree

variable (t : FileTree)

/-- The directory exists. -/
def Has (place : List Bytes) : Prop := place = [] ∨ place = t.cwd ∨ place ∈ t.dirs

instance (place : List Bytes) : Decidable (t.Has place) := inferInstanceAs (Decidable (_ ∨ _))

/-- Where a path starts. -/
def start (path : Bytes) : List Bytes := if path.head? = some slash then [] else t.cwd

/-- The components of a path; slashes that follow each other count as one. -/
def names (path : Bytes) : List (LexicalPath.Component Bytes) :=
  (Tokens.tokens (· == slash) path).map LexicalPath.component

/-- The directories on these components exist. -/
def HasWay (path : Bytes) (cs : List (LexicalPath.Component Bytes)) : Prop :=
  ∀ place ∈ LexicalPath.stops (t.start path) cs, t.Has place

instance (path : Bytes) (cs : List (LexicalPath.Component Bytes)) : Decidable (t.HasWay path cs) :=
  inferInstanceAs (Decidable (∀ place ∈ _, _))

/-- **The directory and every one of its parent directories exist.** -/
def HasPath (path : Bytes) : Prop := t.HasWay path (names path)

instance (path : Bytes) : Decidable (t.HasPath path) := inferInstanceAs (Decidable (t.HasWay _ _))

/-- `access(path, R_OK) == 0`. -/
def access (path : Bytes) : Bool := t.HasPath path

/-- `mkdir(path, mode)`, which succeeds exactly when the parent exists; `none` stands for -1. -/
def mkdir (path : Bytes) : Option FileTree :=
  if t.HasWay path (names path).dropLast then
    some { t with dirs := LexicalPath.walk (t.start path) (names path) :: t.dirs }
  else none

end FileTree

/-! ## `make_directory` -/

/-- `path_name[len-1]`. -/
def lastByte (pathName : CharArray 1000) (len : Nat) : Except Fault UInt8 :=
  if len = 0 then .error .outOfBounds else byteAt pathName.bytes (len - 1)

/-- The slash that is missing: `snprintf(path_name, 2, "%s", "/")`. -/
def addSlash (pathName : CharArray 1000) (last : UInt8) : Except Fault (CharArray 1000) :=
  if last ≠ slash then pathName.store 0 (ascii "/" ++ [0]) else .ok pathName

/-- `dir_name` for the prefix of `path` that ends at `i`. -/
def dirName (path : Bytes) (i : Nat) : Except Fault Bytes := do
  let piece ← strncpy path (i + 1)
  let dirName ← (CharArray.zero 1000).store 0 piece
  stringAt dirName.bytes 0

/-- One prefix: the tree with its directory, or `none` if that cannot be made. -/
def makePrefix (t : FileTree) (dir : Bytes) : Option FileTree :=
  if t.access dir then some t else t.mkdir dir

/-- The loop from `i` on, with the characters left to look at. -/
def makeDirectoryFrom (path : Bytes) (pathName : CharArray 1000) (t : FileTree) (i : Nat) :
    Nat → Except Fault (Bool × FileTree)
  | 0 => .ok (true, t)
  | left + 1 => do
    let c ← byteAt pathName.bytes i
    if c = slash then do
      let dir ← dirName path i
      match makePrefix t dir with
      | some t' => makeDirectoryFrom path pathName t' (i + 1) left
      | none => return (false, t)
    else makeDirectoryFrom path pathName t (i + 1) left

/-- `make_directory(path)`: the value returned and the directories afterwards. -/
def makeDirectory (path : Bytes) (t : FileTree) : Except Fault (Bool × FileTree) := do
  let pathLen ← strlen path
  let piece ← strncpy path pathLen
  let pathName ← (CharArray.zero 1000).store 0 piece
  let len ← strlen pathName.bytes
  let last ← lastByte pathName len
  let pathName ← addSlash pathName last
  let len ← strlen pathName.bytes
  makeDirectoryFrom path pathName t 1 (len - 1)

/-- **`make_directory` does what it reports.** -/
def MakesDirectory (path : Bytes) (t : FileTree) : Prop :=
  ∃ made t', makeDirectory (path ++ [0]) t = .ok (made, t') ∧ (made = true → t'.HasPath path)

/-! ## Making one directory -/

namespace FileTree

variable {t t' : FileTree} {path : Bytes}

/-- A directory that was made exists, with all those on the way to it. -/
theorem hasPath_of_mkdir (h : t.mkdir path = some t') : t'.HasPath path := by
  unfold mkdir at h
  split_ifs at h with hway
  cases h
  intro place hplace
  rcases List.eq_nil_or_concat (names path) with hnil | ⟨cs, c, hcs⟩
  · rw [hnil] at hplace
    cases hplace
  · rw [List.concat_eq_append] at hcs
    rw [hcs, List.dropLast_concat] at hway
    rw [hcs, LexicalPath.stops_concat] at hplace
    rw [hcs]
    rcases List.mem_append.mp hplace with hplace | hplace
    · exact (hway place hplace).imp_right fun h => h.imp_right (List.mem_cons_of_mem _)
    · exact .inr (.inr (List.mem_singleton.mp hplace ▸ List.mem_cons_self ..))

theorem hasPath_of_makePrefix (h : makePrefix t path = some t') : t'.HasPath path := by
  unfold makePrefix at h
  split_ifs at h with haccess
  · cases h
    exact of_decide_eq_true haccess
  · exact hasPath_of_mkdir h

end FileTree

/-! ## The loop -/

section Loop

variable {path : Bytes} {pathName : CharArray 1000} {t : FileTree} {i left : Nat}

/-- The prefix up to `i` is read back as it was copied. -/
theorem dirName_eq (hpath : ∀ c ∈ path, c ≠ 0) (hi : i < path.length) (hfit : i + 1 < 1000) :
    dirName (path ++ [0]) i = .ok (path.take (i + 1)) := by
  have hlen : (path.take (i + 1)).length = i + 1 := List.length_take_of_le hi
  have htake : ∀ c ∈ path.take (i + 1), c ≠ 0 := fun c hc => hpath c (List.mem_of_mem_take hc)
  have hstore : (CharArray.zero 1000).store 0 (path.take (i + 1)) =
      .ok (CharArray.ofBytes 1000 (path.take (i + 1))) := CharArray.store_zero (by omega)
  have hread : stringAt (CharArray.ofBytes 1000 (path.take (i + 1))).bytes 0 =
      .ok (path.take (i + 1)) := by
    have hnul : 0 ∈ (CharArray.ofBytes 1000 (path.take (i + 1))).bytes :=
      CharArray.terminated_iff_mem.mp (CharArray.terminated_ofBytes (by omega))
    have hstr : text (CharArray.ofBytes 1000 (path.take (i + 1))).bytes = path.take (i + 1) :=
      CharArray.str_ofBytes (by omega) htake
    rw [stringAt_eq, List.drop_zero, if_pos hnul, hstr]
  rw [dirName, strncpy_append hpath hi]
  simp only [bind, Except.bind, hstore, hread]

theorem byteAt_ofBytes (hi : i < path.length) (hfit : path.length < 1000) :
    byteAt (CharArray.ofBytes 1000 path).bytes i = .ok path[i] := by
  rw [byteAt, CharArray.bytes_ofBytes hfit.le, List.getElem?_append_left hi,
    List.getElem?_eq_getElem hi]

/-- One turn of the loop. -/
theorem makeDirectoryFrom_succ (hpath : ∀ c ∈ path, c ≠ 0) (hfit : path.length < 1000)
    (hi : i < path.length) :
    makeDirectoryFrom (path ++ [0]) (.ofBytes 1000 path) t i (left + 1) =
      if path[i] = slash then
        match makePrefix t (path.take (i + 1)) with
        | some t' => makeDirectoryFrom (path ++ [0]) (.ofBytes 1000 path) t' (i + 1) left
        | none => .ok (false, t)
      else makeDirectoryFrom (path ++ [0]) (.ofBytes 1000 path) t (i + 1) left := by
  rw [makeDirectoryFrom, byteAt_ofBytes hi hfit, dirName_eq hpath hi (by omega)]
  rfl

/-- **The loop over a path that ends with a slash**: if it returns `true` the directory and its
parents exist, since the last prefix it makes is the path itself. -/
theorem makeDirectoryFrom_spec (hpath : ∀ c ∈ path, c ≠ 0) (hfit : path.length < 1000)
    (hlast : path.getLast? = some slash) (hleft : i + (left + 1) = path.length) :
    ∃ made t', makeDirectoryFrom (path ++ [0]) (.ofBytes 1000 path) t i (left + 1) =
        .ok (made, t') ∧ (made = true → t'.HasPath path) := by
  have hi : i < path.length := by omega
  induction left generalizing i t with
  | zero =>
    have hslash : path[i] = slash := by
      rw [List.getLast?_eq_getElem?, ← hleft, Nat.add_sub_cancel,
        List.getElem?_eq_getElem hi] at hlast
      exact Option.some.inj hlast
    have hwhole : path.take (i + 1) = path := List.take_of_length_le hleft.ge
    rw [makeDirectoryFrom_succ hpath hfit hi, if_pos hslash, hwhole]
    cases hmake : makePrefix t path with
    | none => exact ⟨false, t, rfl, fun h => by cases h⟩
    | some t' => exact ⟨true, t', rfl, fun _ => FileTree.hasPath_of_makePrefix hmake⟩
  | succ left ih =>
    have hleft' : i + 1 + (left + 1) = path.length := by omega
    rw [makeDirectoryFrom_succ hpath hfit hi]
    split_ifs
    · cases makePrefix t (path.take (i + 1)) with
      | none => exact ⟨false, t, rfl, fun h => by cases h⟩
      | some t' => exact ih hleft' (by omega)
    · exact ih hleft' (by omega)

end Loop

/-! ## The call -/

section Call

variable {path : Bytes} {t : FileTree}

/-- The call up to its loop: a slash at the end of the path is left alone, otherwise the loop is given
the path `/`, which has no prefix to make. -/
theorem makeDirectory_eq (hpath : ∀ c ∈ path, c ≠ 0) (hne : path ≠ []) (hfit : path.length < 1000) :
    makeDirectory (path ++ [0]) t =
      if path.getLast? = some slash then
        makeDirectoryFrom (path ++ [0]) (.ofBytes 1000 path) t 1 (path.length - 1)
      else .ok (true, t) := by
  have hpos : 0 < path.length := List.length_pos_iff.mpr hne
  have hstore : (CharArray.zero 1000).store 0 path = .ok (CharArray.ofBytes 1000 path) :=
    CharArray.store_zero hfit.le
  have hlen : strlen (CharArray.ofBytes 1000 path).bytes = .ok path.length := by
    rw [CharArray.strlen_bytes (CharArray.terminated_ofBytes hfit),
      CharArray.str_ofBytes hfit hpath]
  have hend : path.length - 1 < path.length := Nat.sub_lt hpos Nat.one_pos
  have hlast : lastByte (.ofBytes 1000 path) path.length = .ok path[path.length - 1] := by
    rw [lastByte, if_neg hpos.ne', byteAt_ofBytes hend hfit]
  have hgetLast : path.getLast? = some path[path.length - 1] := by
    rw [List.getLast?_eq_getElem?, List.getElem?_eq_getElem hend]
  have hcopy : strncpy (path ++ [0]) path.length = .ok path := by
    rw [strncpy_append hpath (Nat.le_refl _), List.take_length]
  rw [makeDirectory, strlen_append_zero hpath, hgetLast]
  simp only [bind, Except.bind, hcopy, hstore, hlen, hlast, Option.some.injEq]
  by_cases hslash : path[path.length - 1] = slash
  · rw [if_pos hslash, addSlash, if_neg (not_not.mpr hslash)]
    simp only [hlen]
  · obtain ⟨pathName, hadd, hbytes⟩ := CharArray.store_eq_ok (.ofBytes 1000 path) 0
      (ascii "/" ++ [0]) (by decide)
    have hstr : strlen pathName.bytes = .ok 1 := by
      rw [hbytes, splice, List.take_zero, List.nil_append, List.append_assoc]
      exact strlen_append_zero (List.forall_mem_ne'.mpr (by decide)) _
    rw [if_neg hslash, addSlash, if_pos hslash, hadd]
    simp only [hstr]
    rfl

/-- **When `make_directory` does what it reports**: for a path that ends with a slash; for any other
`true` is returned and nothing made, so that everything has to be there before. -/
theorem makesDirectory_iff (hpath : ∀ c ∈ path, c ≠ 0) (hne : path ≠ []) (hfit : path.length ≤ 998) :
    MakesDirectory path t ↔ path.getLast? = some slash ∨ t.HasPath path := by
  rw [MakesDirectory, makeDirectory_eq hpath hne (by omega)]
  by_cases hlast : path.getLast? = some slash
  · refine iff_of_true ?_ (.inl hlast)
    rw [if_pos hlast]
    obtain ⟨k, hk⟩ := Nat.exists_eq_add_one_of_ne_zero (List.length_pos_iff.mpr hne).ne'
    rw [hk, Nat.add_sub_cancel]
    cases k with
    | zero =>
      -- the top directory
      obtain ⟨c, rfl⟩ := List.length_eq_one_iff.mp hk
      cases Option.some.inj hlast
      exact ⟨true, t, rfl, fun _ place hplace => by cases hplace⟩
    | succ k => exact makeDirectoryFrom_spec hpath (by omega) hlast (by omega)
  · rw [if_neg hlast]
    constructor
    · rintro ⟨made, t', hok, hmade⟩
      cases hok
      exact .inr (hmade rfl)
    · rintro (h | h)
      · exact absurd h hlast
      · exact ⟨true, t, rfl, fun _ => h⟩

/-- `a/b/` in an empty working directory. -/
theorem makesDirectory_slash : MakesDirectory (ascii "a/b/") ⟨[], []⟩ :=
  (makesDirectory_iff (List.forall_mem_ne'.mpr (by decide)) (by decide) (by decide)).mpr
    (.inl (by decide))

/-- `a` in an empty working directory: `true` is returned, and there is no `a`. -/
theorem makesDirectory_no_slash : ¬MakesDirectory (ascii "a") ⟨[], []⟩ := by
  rintro ⟨made, t', hok, hmade⟩
  have hresult : makeDirectory (ascii "a" ++ [0]) ⟨[], []⟩ = .ok (true, ⟨[], []⟩) := by rfl
  cases hresult.symm.trans hok
  exact absurd (hmade rfl) (by decide)

end Call

end Sails.Base
