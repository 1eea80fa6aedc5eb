import MavenPom.Text.Cut

/-!
# Paths as text

Joining paths and finding the directory of a path, without looking at any file. Text is kept as it
is written, so that a path found from another one is spelled like it.
-/

namespace MavenPom.Path

def isAbsolute (path : String) : Bool := path.toList.head? == some '/'

/-- A path followed by another one. An absolute one counts alone. -/
def join (base path : String) : String :=
  if isAbsolute path then path
  else if base.isEmpty ∨ base.toList.getLast? = some '/' then base ++ path
  else base ++ "/" ++ path

/-- A reversed path without the slashes and the segments `.` at its end. -/
def dropNoise : List Char → List Char
  | '/' :: cs => dropNoise cs
  | ['.'] => []
  | '.' :: '/' :: cs => dropNoise cs
  | cs => cs

/-- Splits off what names the start of a path: the root, or the current directory. -/
def splitStart : List Char → List Char × List Char
  | '/' :: cs => (['/'], cs)
  | ['.'] => (['.'], [])
  | '.' :: '/' :: cs => (['.'], '/' :: cs)
  | cs => ([], cs)

/-- The path of the directory that holds what a path names. The root has none. -/
def parentChars? (path : List Char) : Option (List Char) :=
  let (start, rest) := splitStart path
  match dropNoise rest.reverse with
  | [] => if start = ['.'] then some [] else none
  | c :: cs => some (start ++ (dropNoise ((c :: cs).dropWhile (· != '/'))).reverse)

theorem length_dropNoise_le (cs : List Char) : (dropNoise cs).length ≤ cs.length := by
  fun_induction dropNoise cs <;> simp_all <;> omega

theorem dropNoise_head {cs rest : List Char} {c : Char} (h : dropNoise cs = c :: rest) :
    c ≠ '/' := by
  fun_induction dropNoise cs with
  | case1 cs ih => exact ih h
  | case2 => simp at h
  | case3 cs ih => exact ih h
  | case4 cs h1 h2 h3 =>
    rintro rfl
    exact h1 rest h

theorem length_splitStart (path : List Char) :
    (splitStart path).1.length + (splitStart path).2.length = path.length := by
  fun_cases splitStart path <;> simp <;> omega

theorem splitStart_eq_dot {path : List Char} (h : (splitStart path).1 = ['.']) : path ≠ [] := by
  rintro rfl
  simp [splitStart] at h

/-- A directory's path is shorter than the paths of what it holds. -/
theorem parentChars?_length_lt {path dir : List Char} (h : parentChars? path = some dir) :
    dir.length < path.length := by
  have hlength := length_splitStart path
  simp only [parentChars?] at h
  cases hnoise : dropNoise (splitStart path).2.reverse with
  | nil =>
    rw [hnoise] at h
    simp only at h
    split at h
    · next hdot =>
      obtain rfl := Option.some.inj h
      exact List.length_pos_iff.mpr (splitStart_eq_dot hdot)
    · cases h
  | cons c cs =>
    have hle := length_dropNoise_le (splitStart path).2.reverse
    have hdir := length_dropNoise_le (List.dropWhile (· != '/') (c :: cs))
    have hdrop := (List.dropWhile_sublist (· != '/') (l := cs)).length_le
    have hhead := dropNoise_head hnoise
    rw [hnoise] at h hle
    obtain rfl := Option.some.inj h
    rw [List.dropWhile_cons_of_pos (by simpa using hhead)] at hdir
    simp only [List.length_append, List.length_reverse, List.length_cons] at *
    rw [List.dropWhile_cons_of_pos (by simpa using hhead)]
    omega

/-- A path and the paths of the directories above it, nearest first. -/
def ancestorsChars (path : List Char) : List (List Char) :=
  match _h : parentChars? path with
  | none => [path]
  | some dir => path :: ancestorsChars dir
termination_by path.length
decreasing_by exact parentChars?_length_lt _h

def parent? (path : String) : Option String :=
  (parentChars? path.toList).map String.ofList

def ancestors (path : String) : List String :=
  (ancestorsChars path.toList).map String.ofList

/-- The directory in which a path's file is, with the current one as `.`. -/
def directory (path : String) : String :=
  ((parent? path).filter (!·.isEmpty)).getD "."

/-- The segments of a path that name something. -/
def significant (path : List Char) : List (List Char) :=
  (path.splitOn '/').filter fun segment => segment != [] && segment != ['.']

/-- Whether a path is a single name, to be looked up among the directories for programs. -/
def isBare (path : String) : Bool :=
  let (start, rest) := splitStart path.toList
  match start with
  | [] => (significant rest).length ≤ 1
  | '.' :: _ => (significant rest).isEmpty
  | _ => false

end MavenPom.Path
