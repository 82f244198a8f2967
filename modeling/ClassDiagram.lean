import ClassDiagram.Main
import ClassDiagram.Proofs.Extraction.Occurrence
import ClassDiagram.Proofs.Extraction.Types
import ClassDiagram.Proofs.Extraction.Relations
import ClassDiagram.Proofs.Dump.Closure
import ClassDiagram.Proofs.Dump.Traversal
import ClassDiagram.Proofs.Extraction.Namespaces
import ClassDiagram.Proofs.Dump.Parts
import ClassDiagram.Proofs.Dump.Identifiers
import ClassDiagram.Proofs.Dump.Inheritance
import ClassDiagram.Proofs.Diagram.Order
import ClassDiagram.Proofs.Dump.Rearrangement
import ClassDiagram.Proofs.Dump.Places
import ClassDiagram.Proofs.Dump.Lockstep
import ClassDiagram.Proofs.Diagram.Completeness
import ClassDiagram.Proofs.Diagram.Reading
import ClassDiagram.Proofs.Files.Walk
import ClassDiagram.Proofs.Files.Folders
import ClassDiagram.Proofs.Drift.Comparison
import ClassDiagram.Proofs.CommandLine.Session
import ClassDiagram.Proofs.CommandLine.Answer
import ClassDiagram.Proofs.Writer.Draft
import ClassDiagram.Proofs.Writer.Atomicity
import ClassDiagram.Proofs.Files.Descent
import ClassDiagram.Proofs.Glob.Growth
import ClassDiagram.Proofs.Writer.Extension
import ClassDiagram.Proofs.Emission.Sources
import ClassDiagram.Proofs.Emission.AllOrNothing
import ClassDiagram.Proofs.Dump.Labels
import ClassDiagram.Proofs.BuildDocument.Tables
import ClassDiagram.Proofs.BuildDocument.Session
import ClassDiagram.Proofs.BuildDocument.Agreement
import ClassDiagram.Proofs.Files.Parent
import ClassDiagram.Proofs.Files.Utf8
import ClassDiagram.Proofs.Writer.Beside
import ClassDiagram.Proofs.Toggle.Unit
import ClassDiagram.Proofs.Toggle.Solution
import ClassDiagram.Proofs.Toml.Layout
import ClassDiagram.Proofs.Toml.Lexemes
import ClassDiagram.Proofs.Toml.Spelling
import ClassDiagram.Proofs.Toml.Keys
import ClassDiagram.Proofs.Toml.Readers
import ClassDiagram.Proofs.Toml.Fields
import ClassDiagram.Proofs.Toml.Values
import ClassDiagram.Proofs.Toml.Statements
import ClassDiagram.Proofs.Toml.Shapes
import ClassDiagram.Proofs.Toml.Steps
import ClassDiagram.Proofs.Toml.Growth
import ClassDiagram.Proofs.Toml.Upkeep
import ClassDiagram.Proofs.Toml.Blocks
import ClassDiagram.Proofs.Toml.Reprint
import ClassDiagram.Proofs.Toml.Comments
import ClassDiagram.Proofs.Toml.Comments.Values
import ClassDiagram.Proofs.Toml.Comments.Trees
import ClassDiagram.Proofs.Toml.Comments.Documents
import ClassDiagram.Proofs.Toml.Slots
import ClassDiagram.Proofs.Toml.Order
import ClassDiagram.Proofs.Toml.Written
import ClassDiagram.Proofs.Toml.Plain
import ClassDiagram.Proofs.Toml.Origins
import ClassDiagram.Proofs.Toml.Looks
import ClassDiagram.Proofs.Toml.Outlines
import ClassDiagram.Proofs.BuildDocument.Configuration
import ClassDiagram.Proofs.BuildDocument.Echo
import ClassDiagram.Proofs.BuildDocument.Rereading
import ClassDiagram.Proofs.BuildDocument.Saved
import ClassDiagram.Proofs.BuildDocument.Comments
import ClassDiagram.Proofs.BuildDocument.Frame
import ClassDiagram.Proofs.BuildDocument.Again
import ClassDiagram.Proofs.Files.Inside
import ClassDiagram.Proofs.Toggle.Repository
import ClassDiagram.Proofs.Toggle.Shown
import ClassDiagram.Proofs.Glob.Order
import ClassDiagram.Proofs.Extraction.Floors
import ClassDiagram.Proofs.Extraction.Placement
import ClassDiagram.Proofs.Files.Below
import ClassDiagram.Proofs.Glob.Parts
import ClassDiagram.Proofs.Glob.Below
import ClassDiagram.Proofs.Manifest
import ClassDiagram.Proofs.Diagram.Owners
import ClassDiagram.Proofs.Manifest.Repeats
import ClassDiagram.Proofs.Writer.Elsewhere
import ClassDiagram.Proofs.Toggle.Removal
import ClassDiagram.Proofs.Toggle.Overrides
