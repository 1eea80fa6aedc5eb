import MavenPom.Project.Basic
import MavenPom.Request.Basic

/-!
# Keeping the layout

Commands that capture the layout of documents before they are edited, and write the results in it.
A document without changes results in the bytes that it was read from.
-/

namespace MavenPom.Formatting

/-- Changes documents one by one, up to the first one that this fails for. -/
def eachDocument (f : Document → Except RequestError Document) :
    List Document → List Document × Option RequestError
  | [] => ([], none)
  | d :: rest =>
    match f d with
    | .error e => (d :: rest, some e)
    | .ok d' =>
      let (rest', fault) := eachDocument f rest
      (d' :: rest', fault)

/-- Changes all documents of a project, from the target on, up to the first one that this fails
    for. -/
def changeDocuments (f : Document → Except RequestError Document) :
    Action Project RequestError Unit := do
  let p ← get
  let (changed, fault) := eachDocument f p.documents
  match changed with
  | [] => pure ()
  | target :: ancestors => set { p with target, ancestors }
  match fault with
  | some e => throw e
  | none => pure ()

/-- The document with its layout captured. -/
def capture (d : Document) : Except RequestError Document :=
  d.captureLayout.mapError .project

/-- The document with its result in the captured layout, or as it was read if nothing changed. -/
def writeResult (d : Document) : Except RequestError Document :=
  if !d.hasChanges then
    .ok (if d.result.isNone then d.discardChanges else d)
  else do
    let layout ← d.capture.mapError .project
    let result ← (layout.restore d.editedText).mapError .markup
    return { d with layout := some layout, result := some result, dirty := true }

/-- Captures layouts on the way in, and writes results in them on the way out. -/
def keepLayout : Command Project RequestError where
  name := "format"
  isSupport := true
  execute := do
    changeDocuments capture
    pure .notApplicable
  postProcess := do
    changeDocuments writeResult
    pure false

/-- The document, discarded if nothing changed. -/
def discardUnchanged (d : Document) : Document := if d.hasChanges then d else d.discardChanges

/-- On the way out, drops edits that change nothing. This ends it if there were no others. -/
def discardUnchangedAll : Command Project RequestError where
  name := "discard-format"
  isSupport := true
  execute := pure .notApplicable
  postProcess := do
    let p ← get
    set (p.mapDocuments discardUnchanged)
    pure (!p.modified && p.documents.all fun d => !d.hasChanges)

end MavenPom.Formatting
