import MavenPom.Dependency
import MavenPom.Maven.Error
import MavenPom.Pom.Profile

/-!
# Requests

What is asked of a project: to bring a dependency into it, or to say which dependencies it has. And
why that fails.
-/

namespace MavenPom

/-- The ways in which a request may look for dependencies. -/
inductive QueryType where
  /-- The request is none for dependencies, but one to change documents. -/
  | none
  /-- Only ways that run nothing of the project's. -/
  | safe
  /-- Every way, also running Maven. -/
  | any
  deriving DecidableEq, Repr

/-- The ancestor whose managed entries a request changes. -/
inductive ManagedTarget where
  | farthest
  | nearest
  deriving DecidableEq, Repr

structure Request where
  dependency : Option Dependency
  /-- Whether a version that is not newer leaves the present one in place. -/
  skipIfNewer : Bool
  /-- Whether versions are written into properties. -/
  useProperties : Bool
  /-- Whether a shared property may be changed. -/
  overrideExisting : Bool
  offline : Bool
  /-- The names of profiles, as they are asked for. -/
  profiles : List String
  query : QueryType
  managedTarget : ManagedTarget
  repository : Option String
  deriving DecidableEq, Repr

namespace Request

/-- A request for nothing in particular. -/
def standard : Request := ⟨none, true, false, false, false, [], .none, .farthest, none⟩

def selection (r : Request) : ProfileSelection := ProfileSelection.ofNames r.profiles

/-- Whether the request is one to change documents. -/
def isMutation (r : Request) : Bool := r.query == .none

end Request

/-- Why a request fails. -/
inductive RequestError where
  | missingDependency
  /-- An ancestor is packaged as something to inherit nothing from. -/
  | wrongPackaging (location packaging : String)
  | invalidParent (location expected : String)
  /-- A property that more than one place refers to has another value. -/
  | ambiguousProperty (name existing requested : String)
  | strategyFailed (strategy : String) (cause : BuildError)
  | project (cause : ProjectError)
  | build (cause : BuildError)
  | markup (cause : Markup.Error)
  deriving DecidableEq, Repr

/-- The error as it is reported. -/
def RequestError.message : RequestError → String
  | .missingDependency => "no dependency given for a modification request"
  | .wrongPackaging location packaging =>
    location ++ " has packaging \x60" ++ packaging ++ "\x60; ancestor POMs must use \x60pom\x60"
  | .invalidParent location expected =>
    location ++ " does not declare " ++ expected ++ " as its parent"
  | .ambiguousProperty name existing requested =>
    "property \x60" ++ name ++ "\x60 is shared and holds \x60" ++ existing ++
      "\x60; refusing to change it to \x60" ++ requested ++ "\x60 without override"
  | .strategyFailed strategy _ => "query strategy " ++ strategy ++ " failed"
  | .project cause => cause.message
  | .build cause => cause.message
  | .markup cause => cause.message

end MavenPom
