import MavenPom.Action
import MavenPom.Chain
import MavenPom.Charset
import MavenPom.Dependency
import MavenPom.Edit.Editor
import MavenPom.Edit.Formatting
import MavenPom.Edit.Guard
import MavenPom.Edit.Insertion
import MavenPom.Edit.Modification
import MavenPom.Edit.VersionSlot
import MavenPom.Files.Error
import MavenPom.Files.Path
import MavenPom.Files.Tree
import MavenPom.Interpolation
import MavenPom.Markup.Error
import MavenPom.Markup.Indent
import MavenPom.Markup.Layout
import MavenPom.Markup.Reference
import MavenPom.Markup.Strict.Document
import MavenPom.Markup.Strict.Token
import MavenPom.Markup.Token
import MavenPom.Markup.Tree.Basic
import MavenPom.Markup.Tree.Edit
import MavenPom.Markup.Tree.Text
import MavenPom.Maven.DependencyTree
import MavenPom.Maven.Error
import MavenPom.Maven.Executable
import MavenPom.Maven.Run
import MavenPom.Pattern.Atom
import MavenPom.Pattern.Basic
import MavenPom.Pom.Basic
import MavenPom.Pom.Effective
import MavenPom.Pom.Profile
import MavenPom.Project.Ancestry
import MavenPom.Project.Basic
import MavenPom.Project.Document
import MavenPom.Project.Error
import MavenPom.Proofs.Action
import MavenPom.Proofs.Calls
import MavenPom.Proofs.Chain
import MavenPom.Proofs.Charset
import MavenPom.Proofs.Coordinate
import MavenPom.Proofs.Downgrade
import MavenPom.Proofs.Edit.Append
import MavenPom.Proofs.Edit.Entry
import MavenPom.Proofs.Edit.Growth
import MavenPom.Proofs.Edit.Order
import MavenPom.Proofs.Edit.Path
import MavenPom.Proofs.Edit.Property
import MavenPom.Proofs.Edit.Slot
import MavenPom.Proofs.Edit.Step
import MavenPom.Proofs.Edit.Uniform
import MavenPom.Proofs.Edit.View
import MavenPom.Proofs.Expansion
import MavenPom.Proofs.Files.Location
import MavenPom.Proofs.Files.Walk
import MavenPom.Proofs.Files.Write
import MavenPom.Proofs.Identifiers
import MavenPom.Proofs.InPlace
import MavenPom.Proofs.Interpolation
import MavenPom.Proofs.Isolation
import MavenPom.Proofs.Loop
import MavenPom.Proofs.Markup.Alike
import MavenPom.Proofs.Markup.Amended
import MavenPom.Proofs.Markup.Arena
import MavenPom.Proofs.Markup.Attribute
import MavenPom.Proofs.Markup.Capture
import MavenPom.Proofs.Markup.Characters
import MavenPom.Proofs.Markup.Composed
import MavenPom.Proofs.Markup.Edit
import MavenPom.Proofs.Markup.Forest
import MavenPom.Proofs.Markup.Frame
import MavenPom.Proofs.Markup.Joined
import MavenPom.Proofs.Markup.Legible
import MavenPom.Proofs.Markup.LineBreak
import MavenPom.Proofs.Markup.Name
import MavenPom.Proofs.Markup.Nodes
import MavenPom.Proofs.Markup.Noise
import MavenPom.Proofs.Markup.Order
import MavenPom.Proofs.Markup.Outline
import MavenPom.Proofs.Markup.Passage
import MavenPom.Proofs.Markup.Read
import MavenPom.Proofs.Markup.Recovery
import MavenPom.Proofs.Markup.Replacement
import MavenPom.Proofs.Markup.Respelling
import MavenPom.Proofs.Markup.Restoration
import MavenPom.Proofs.Markup.Restore
import MavenPom.Proofs.Markup.RoundTrip
import MavenPom.Proofs.Markup.Script
import MavenPom.Proofs.Markup.Spelling
import MavenPom.Proofs.Markup.Spots
import MavenPom.Proofs.Markup.Strict
import MavenPom.Proofs.Markup.TagSpelling
import MavenPom.Proofs.Markup.Tags
import MavenPom.Proofs.Markup.Tandem
import MavenPom.Proofs.Markup.Token
import MavenPom.Proofs.Markup.Uniform
import MavenPom.Proofs.Markup.WellFormed
import MavenPom.Proofs.Markup.Writing
import MavenPom.Proofs.Maven.DependencyTree
import MavenPom.Proofs.Met
import MavenPom.Proofs.Order
import MavenPom.Proofs.Pom.Dependencies
import MavenPom.Proofs.Pom.Effective
import MavenPom.Proofs.Pom.Entries
import MavenPom.Proofs.Pom.Lineage
import MavenPom.Proofs.Pom.Merge
import MavenPom.Proofs.Pom.Properties
import MavenPom.Proofs.Pom.Reading
import MavenPom.Proofs.Pom.Shown
import MavenPom.Proofs.Project.Ancestry
import MavenPom.Proofs.Project.Characters
import MavenPom.Proofs.Project.Childless
import MavenPom.Proofs.Project.Declaration
import MavenPom.Proofs.Project.Edits
import MavenPom.Proofs.Project.Fallback
import MavenPom.Proofs.Project.Growth
import MavenPom.Proofs.Project.InPlay
import MavenPom.Proofs.Project.Indentation
import MavenPom.Proofs.Project.Modify
import MavenPom.Proofs.Project.Planned
import MavenPom.Proofs.Project.Properties
import MavenPom.Proofs.Project.Readers
import MavenPom.Proofs.Project.Restoration
import MavenPom.Proofs.Project.Shows
import MavenPom.Proofs.Project.View
import MavenPom.Proofs.Project.Write
import MavenPom.Proofs.PropertyUpgrade
import MavenPom.Proofs.Qualifier
import MavenPom.Proofs.Query.Direct
import MavenPom.Proofs.Query.Safe
import MavenPom.Proofs.Recognition
import MavenPom.Proofs.Refusal
import MavenPom.Proofs.Repository.Building
import MavenPom.Proofs.Repository.Climb
import MavenPom.Proofs.Repository.Confinement
import MavenPom.Proofs.Repository.Decoding
import MavenPom.Proofs.Repository.Failure
import MavenPom.Proofs.Repository.Justification
import MavenPom.Proofs.Repository.Kept
import MavenPom.Proofs.Repository.Load
import MavenPom.Proofs.Repository.Mediation
import MavenPom.Proofs.Repository.Offline
import MavenPom.Proofs.Repository.Store
import MavenPom.Proofs.Repository.Tour
import MavenPom.Proofs.Repository.Visits
import MavenPom.Proofs.Results
import MavenPom.Proofs.Steps
import MavenPom.Proofs.Table
import MavenPom.Proofs.Text.Encoding
import MavenPom.Proofs.Text.Fields
import MavenPom.Proofs.Text.Trim
import MavenPom.Proofs.Uniform
import MavenPom.Proofs.Upgrade
import MavenPom.Proofs.Version
import MavenPom.Query.Basic
import MavenPom.Query.Run
import MavenPom.Query.Strategy
import MavenPom.Repository.Environment
import MavenPom.Repository.PomStore
import MavenPom.Repository.Resolution
import MavenPom.Request.Basic
import MavenPom.Settings.Basic
import MavenPom.Settings.Environment
import MavenPom.Settings.LogFilter
import MavenPom.Shell.Argument
import MavenPom.Shell.Arithmetic
import MavenPom.Shell.Builtin
import MavenPom.Shell.Command
import MavenPom.Shell.Commands
import MavenPom.Shell.Condition
import MavenPom.Shell.Cut
import MavenPom.Shell.Expansion
import MavenPom.Shell.Floating
import MavenPom.Shell.Format
import MavenPom.Shell.Glob
import MavenPom.Shell.Job
import MavenPom.Shell.JobControl
import MavenPom.Shell.Launch
import MavenPom.Shell.Limit
import MavenPom.Shell.Mode
import MavenPom.Shell.Octets
import MavenPom.Shell.Program
import MavenPom.Shell.Run
import MavenPom.Shell.Runner
import MavenPom.Shell.Script
import MavenPom.Shell.Session
import MavenPom.Shell.Source
import MavenPom.Shell.Words
import MavenPom.Table
import MavenPom.Text.Blank
import MavenPom.Text.Cut
import MavenPom.Text.Letter
import MavenPom.Text.Number
import MavenPom.Text.Utf16
import MavenPom.Text.Utf8
import MavenPom.Toml.Document
import MavenPom.Toml.Scalar
import MavenPom.Version
