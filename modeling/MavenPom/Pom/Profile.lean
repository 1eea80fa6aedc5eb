import MavenPom.Text.Blank

/-!
# Profile selection

The profiles that a build asks for or rules out.
-/

namespace MavenPom

/-- Profile ids asked for and ruled out, each sorted and without repetition. -/
structure ProfileSelection where
  active : List String
  inactive : List String
  deriving DecidableEq, Repr

namespace ProfileSelection

def none : ProfileSelection := ⟨[], []⟩

/-- The strings, sorted, each once. -/
def sortedSet (ids : List String) : List String :=
  (ids.eraseDups).mergeSort fun a b => a ≤ b

/-- A request about one profile. -/
inductive Request where
  | activate (id : String)
  | deactivate (id : String)
  deriving DecidableEq, Repr

/-- What a name asks for: a profile, or with `!` or `-` before it, to do without. A name that is
    empty asks for nothing. -/
def request? (name : String) : Option Request :=
  match Text.trimChars name.toList with
  | [] => .none
  | c :: cs =>
    if c = '!' ∨ c = '-' then
      if cs.isEmpty then .none else some (.deactivate (String.ofList cs))
    else some (.activate (String.ofList (c :: cs)))

/-- The selection that names ask for. -/
def ofNames (names : List String) : ProfileSelection :=
  let requests := names.filterMap request?
  { active := sortedSet (requests.filterMap fun
      | .activate id => some id
      | .deactivate _ => .none)
    inactive := sortedSet (requests.filterMap fun
      | .activate _ => .none
      | .deactivate id => some id) }

def deactivates (s : ProfileSelection) (id : String) : Bool := s.inactive.contains id

/-- Whether a profile is asked for and not ruled out. -/
def activates (s : ProfileSelection) (id : String) : Bool :=
  s.active.contains id && !s.deactivates id

/-- The selection as the argument of Maven's `-P`, if it asks for anything. -/
def argument? (s : ProfileSelection) : Option String :=
  let names := s.active ++ s.inactive.map ("!" ++ ·)
  if names.isEmpty then .none else some (",".intercalate names)

end ProfileSelection

end MavenPom
