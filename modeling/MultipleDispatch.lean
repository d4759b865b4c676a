import MultipleDispatch.Candidate.Basic
import MultipleDispatch.Candidate.Json
import MultipleDispatch.Classes
import MultipleDispatch.Code.Emission
import MultipleDispatch.Code.Program
import MultipleDispatch.CommandLine
import MultipleDispatch.Compilation
import MultipleDispatch.Error
import MultipleDispatch.Event.Basic
import MultipleDispatch.Event.Text
import MultipleDispatch.Event.Traced
import MultipleDispatch.Folder
import MultipleDispatch.Group.Basic
import MultipleDispatch.Group.Dominance
import MultipleDispatch.Group.Reduction
import MultipleDispatch.Group.Signature
import MultipleDispatch.IndexSet
import MultipleDispatch.Json.Basic
import MultipleDispatch.Main
import MultipleDispatch.Manifest.Basic
import MultipleDispatch.Manifest.Toml
import MultipleDispatch.Policy
import MultipleDispatch.Report
import MultipleDispatch.Settings.Basic
import MultipleDispatch.Settings.Json
import MultipleDispatch.Settings.Overrides
import MultipleDispatch.Settings.Toml
import MultipleDispatch.Subtyping.Arrangement
import MultipleDispatch.Subtyping.Basic
import MultipleDispatch.Subtyping.Hierarchy
import MultipleDispatch.Text.Blank
import MultipleDispatch.Text.Hex
import MultipleDispatch.Text.Quoted
import MultipleDispatch.Text.Shown
import MultipleDispatch.Toml.Assembly
import MultipleDispatch.Toml.Reader
import MultipleDispatch.Toml.Scalar
import MultipleDispatch.Toml.Strings
import MultipleDispatch.Toml.Value
import MultipleDispatch.Tree.Basic
import MultipleDispatch.Tree.Growth
import MultipleDispatch.Tree.Memo
import MultipleDispatch.Tree.Text
import MultipleDispatch.Tree.Walk
import MultipleDispatch.Proofs.Arrangement
import MultipleDispatch.Proofs.Attempts
import MultipleDispatch.Proofs.Classes
import MultipleDispatch.Proofs.Dominance
import MultipleDispatch.Proofs.Reduction
import MultipleDispatch.Proofs.Preference
import MultipleDispatch.Proofs.Growth
import MultipleDispatch.Proofs.Selection
import MultipleDispatch.Proofs.Compilation
import MultipleDispatch.Proofs.Execution
import MultipleDispatch.Proofs.Soundness
import MultipleDispatch.Proofs.Numbering
import MultipleDispatch.Proofs.Principals
import MultipleDispatch.Proofs.Shape
import MultipleDispatch.Proofs.Termination
import MultipleDispatch.Proofs.Unbeaten
import MultipleDispatch.Proofs.Declarations
import MultipleDispatch.Proofs.Events
import MultipleDispatch.Proofs.Meets
import MultipleDispatch.Proofs.Subsets
import MultipleDispatch.Proofs.Partition
import MultipleDispatch.Proofs.Layout
import MultipleDispatch.Proofs.Memo
import MultipleDispatch.Proofs.Manifest
import MultipleDispatch.Proofs.LinearExtension
import MultipleDispatch.Proofs.Paths
import MultipleDispatch.Proofs.Separation
import MultipleDispatch.Proofs.Policies
import MultipleDispatch.Proofs.Leaves
import MultipleDispatch.Proofs.Countdown
import MultipleDispatch.Proofs.Cycles
import MultipleDispatch.Proofs.Choice
import MultipleDispatch.Proofs.GroupOrder
import MultipleDispatch.Proofs.Representatives
import MultipleDispatch.Proofs.Ingestion
import MultipleDispatch.Proofs.Filing
import MultipleDispatch.Proofs.Joins
import MultipleDispatch.Proofs.Listings
import MultipleDispatch.Proofs.Queries
import MultipleDispatch.Proofs.Lines
