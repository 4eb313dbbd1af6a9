import Sails.Library.CMemory
import Mathlib.Data.List.Infix

/-!
# Lexical resolution of file paths

What a path string denotes when there are no symbolic links. A place in the directory tree
is the list of the names that lead to it, the innermost first, so that `r <:+ p` says that
`p` lies at or below `r`.

- `walk`: follow components from a place (`.` and empty ones stay, `..` goes up)
- `stops`: the places on the way
- `Displacement`: what a list of components does to every place alike, the number of levels
  it climbs and the names it then enters
- `step_suffix_iff`: when a displaced place lies below a neighbour of the place it began at
- `resolve`: the place a path string denotes, given the working directory
-/

namespace LexicalPath

open CMemory (Bytes)

variable {Name : Type*}

/-! ## Components -/

/-- One component of a path. -/
inductive Component (Name : Type*) where
  /-- an empty component or `.` -/
  | stay
  /-- `..` -/
  | up
  | down (name : Name)
  deriving DecidableEq

/-- Follow one component; above the top directory there is only itself. -/
def Component.step (place : List Name) : Component Name → List Name
  | .stay => place
  | .up => place.drop 1
  | .down name => name :: place

/-- Follow components one after the other. -/
def walk (place : List Name) (cs : List (Component Name)) : List Name :=
  cs.foldl Component.step place

@[simp] theorem walk_append (place : List Name) (cs ds : List (Component Name)) :
    walk place (cs ++ ds) = walk (walk place cs) ds := List.foldl_append

@[simp] theorem walk_singleton (place : List Name) (c : Component Name) :
    walk place [c] = c.step place := rfl

/-- The places on the way, one for each component. -/
def stops (place : List Name) : List (Component Name) → List (List Name)
  | [] => []
  | c :: cs => c.step place :: stops (c.step place) cs

/-- The last of them is where the way leads. -/
theorem stops_concat (place : List Name) (cs : List (Component Name)) (c : Component Name) :
    stops place (cs ++ [c]) = stops place cs ++ [walk place (cs ++ [c])] := by
  induction cs generalizing place with
  | nil => rfl
  | cons d cs ih =>
    rw [List.cons_append, stops, ih, stops]
    rfl

/-! ## Displacements -/

/-- Climb `ups` levels, then enter `names` (the innermost first). -/
structure Displacement (Name : Type*) where
  ups : Nat
  names : List Name
  deriving DecidableEq

namespace Displacement

/-- The place a displacement leads to. -/
def apply (d : Displacement Name) (place : List Name) : List Name :=
  d.names ++ place.drop d.ups

/-- One component more. -/
def step (d : Displacement Name) : Component Name → Displacement Name
  | .stay => d
  | .up =>
    match d.names with
    | [] => { d with ups := d.ups + 1 }
    | _ :: names => { d with names := names }
  | .down name => { d with names := name :: d.names }

/-- The displacement of a list of components. -/
def of (cs : List (Component Name)) : Displacement Name := cs.foldl step ⟨0, []⟩

theorem apply_step (d : Displacement Name) (c : Component Name) (place : List Name) :
    (d.step c).apply place = c.step (d.apply place) := by
  cases c with
  | stay => rfl
  | down name => rfl
  | up =>
    obtain ⟨ups, names⟩ := d
    cases names with
    | nil => simp [step, apply, Component.step, List.drop_drop]
    | cons name names => rfl

theorem apply_foldl (cs : List (Component Name)) (d : Displacement Name) (place : List Name) :
    (cs.foldl step d).apply place = walk (d.apply place) cs := by
  induction cs generalizing d with
  | nil => rfl
  | cons c cs ih => rw [List.foldl_cons, ih, apply_step]; rfl

/-- Components move every place alike. -/
theorem apply_of (cs : List (Component Name)) (place : List Name) :
    (of cs).apply place = walk place cs := by
  rw [of, apply_foldl]
  simp [apply]

end Displacement

/-! ## Staying below a place -/

/-- From `climbed` levels above `place`, the names one has to enter to be back at the place
that `c` leads to from `place`. -/
def wayBack (place : List Name) (c : Component Name) (climbed : Nat) : List Name :=
  match c with
  | .stay => place.take climbed
  | .up => (place.drop 1).take (climbed - 1)
  | .down name => name :: place.take climbed

/-- Climbing from `place` and then entering `names` ends at or below `c.step place` exactly
when the first names entered are the way back to it. -/
theorem step_suffix_iff (place names : List Name) (c : Component Name) (climbed : Nat) :
    c.step place <:+ names ++ place.drop climbed ↔ wayBack place c climbed <:+ names := by
  have hstay : place.take climbed ++ place.drop climbed = place := List.take_append_drop ..
  cases c with
  | stay =>
    calc place <:+ names ++ place.drop climbed
        ↔ place.take climbed ++ place.drop climbed <:+ names ++ place.drop climbed := by rw [hstay]
      _ ↔ place.take climbed <:+ names := List.suffix_append_self_iff
  | down name =>
    have hdown : name :: place = name :: place.take climbed ++ place.drop climbed := by
      rw [List.cons_append, hstay]
    rw [Component.step, hdown, List.suffix_append_self_iff]
    rfl
  | up =>
    simp only [Component.step, wayBack]
    cases climbed with
    | zero =>
      -- nothing was climbed: the parent lies above whatever was entered
      simp only [List.drop_zero, Nat.zero_sub, List.take_zero, List.nil_suffix, iff_true]
      exact (List.drop_suffix 1 place).trans (List.suffix_append _ _)
    | succ k =>
      have hup : (place.drop 1).take k ++ place.drop (k + 1) = place.drop 1 := by
        rw [Nat.add_comm, ← List.drop_drop, List.take_append_drop]
      rw [Nat.add_sub_cancel, ← hup, List.suffix_append_self_iff, hup]

/-! ## Path strings -/

/-- The byte `/`. -/
def slash : UInt8 := 47

/-- The byte `.`. -/
def dot : UInt8 := 46

/-- What one component of a path string means. -/
def component (name : Bytes) : Component Bytes :=
  if name = [] ∨ name = [dot] then .stay
  else if name = [dot, dot] then .up
  else .down name

/-- The components of a path string. -/
def components (path : Bytes) : List (Component Bytes) :=
  (path.splitOn slash).map component

/-- The place a path string denotes. -/
def resolve (cwd : List Bytes) (path : Bytes) : List Bytes :=
  walk (if path.head? = some slash then [] else cwd) (components path)

/-- The part of a path behind its last slash. -/
def lastPart (path : Bytes) : Bytes :=
  (path.splitOn slash).getLast (List.splitOn_ne_nil slash path)

/-- The place that the part of a path up to its last slash denotes. -/
def directory (cwd : List Bytes) (path : Bytes) : List Bytes :=
  walk (if path.head? = some slash then [] else cwd)
    ((path.splitOn slash).dropLast.map component)

theorem resolve_eq_step (cwd : List Bytes) (path : Bytes) :
    resolve cwd path = (component (lastPart path)).step (directory cwd path) := by
  have hsplit := List.dropLast_append_getLast (List.splitOn_ne_nil slash path)
  rw [resolve, components, ← hsplit, List.map_append, walk_append]
  rfl

/-- A path is its own last part, or has a last slash. -/
theorem eq_or_eq_append_slash (path : Bytes) :
    slash ∉ path ∨ ∃ front last, path = front ++ slash :: last ∧ slash ∉ last := by
  by_cases h : slash ∈ path
  · obtain ⟨last, front, heq, hlast⟩ := List.eq_append_cons_of_mem (List.mem_reverse.mpr h)
    refine Or.inr ⟨front.reverse, last.reverse, ?_, by simpa using hlast⟩
    simpa using congrArg List.reverse heq
  · exact Or.inl h

/-- Bytes appended to a path only change what stands behind its last slash. -/
theorem splitOn_append (path more : Bytes) :
    (path ++ more).splitOn slash =
      (path.splitOn slash).dropLast ++ (lastPart path ++ more).splitOn slash := by
  rcases eq_or_eq_append_slash path with h | ⟨front, last, rfl, hlast⟩
  · simp [lastPart, List.splitOn_eq_singleton h]
  · have hsplit : (front ++ slash :: last).splitOn slash = front.splitOn slash ++ [last] := by
      rw [List.splitOn_append_cons_self, List.splitOn_eq_singleton hlast]
    have hpart : lastPart (front ++ slash :: last) = last := by
      simp only [lastPart, hsplit, List.getLast_append_singleton]
    rw [hpart, hsplit, List.dropLast_concat, List.append_assoc, List.cons_append,
      List.splitOn_append_cons_self]

/-- The levels climbed above the directory of `path` by reading its last part and `more`;
absolute bytes behind an empty path climb to the top. -/
def climbed (cwd : List Bytes) (path more : Bytes) : Nat :=
  if path = [] ∧ more.head? = some slash then cwd.length
  else (Displacement.of (components (lastPart path ++ more))).ups

/-- The names entered from there. -/
def entered (path more : Bytes) : List Bytes :=
  (Displacement.of (components (lastPart path ++ more))).names

theorem resolve_append (cwd : List Bytes) (path more : Bytes) :
    resolve cwd (path ++ more) =
      entered path more ++ (directory cwd path).drop (climbed cwd path more) := by
  have hwalk : ∀ start, walk start (components (path ++ more)) =
      (Displacement.of (components (lastPart path ++ more))).apply
        (walk start ((path.splitOn slash).dropLast.map component)) := fun start => by
    rw [Displacement.apply_of, ← walk_append, components, splitOn_append, List.map_append,
      components]
  rw [resolve, hwalk]
  cases path with
  | nil =>
    have hdir : directory cwd [] = cwd := rfl
    simp only [List.nil_append, climbed, entered, Displacement.apply, true_and, hdir]
    by_cases habs : more.head? = some slash
    · simp [habs, walk]
    · simp [habs, walk]
  | cons c path =>
    simp [climbed, entered, Displacement.apply, directory]

/-- **Containment**: a path extended by `more` lies at or below the place of the path exactly
when `more`, from the highest level it climbs to, first enters the way back. -/
theorem resolve_suffix_resolve_append_iff (cwd : List Bytes) (path more : Bytes) :
    resolve cwd path <:+ resolve cwd (path ++ more) ↔
      wayBack (directory cwd path) (component (lastPart path)) (climbed cwd path more) <:+
        entered path more := by
  rw [resolve_eq_step, resolve_append, step_suffix_iff]

end LexicalPath
