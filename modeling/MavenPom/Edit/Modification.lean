import MavenPom.Edit.Formatting
import MavenPom.Edit.Guard
import MavenPom.Edit.Insertion

/-!
# Modifying projects

Carrying out a request for a change. The layout is captured before anything is edited. Whether
anything changed is decided before the layout is put back.
-/

namespace MavenPom

/-- The commands that carry out a request for a change, in their order. -/
def modificationCommands : List (Command Project RequestError) :=
  [Guard.dependencyPresent, Guard.parentPackaging, Formatting.keepLayout,
    Formatting.discardUnchangedAll, Insertion.upgrade, Insertion.upgradeManaged,
    Insertion.manageInAncestor, Insertion.insert]

/-- Carries out a request, and says whether a command handled it. -/
def Project.modify : Editing Bool := Chain.run modificationCommands

end MavenPom
