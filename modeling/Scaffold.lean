import Scaffold.Body.Copying
import Scaffold.Body.Equality
import Scaffold.Body.Order
import Scaffold.Body.Update
import Scaffold.Capability
import Scaffold.Catalog
import Scaffold.Catalog.Check
import Scaffold.Classes
import Scaffold.Code
import Scaffold.Code.Written
import Scaffold.CommandLine.Arguments
import Scaffold.CommandLine.Report
import Scaffold.CommandLine.Run
import Scaffold.Decl
import Scaffold.Directive
import Scaffold.Eval.Compare
import Scaffold.Eval.Run
import Scaffold.Eval.Store
import Scaffold.Fault
import Scaffold.FileTree
import Scaffold.Generation
import Scaffold.Inheritance
import Scaffold.Initial
import Scaffold.Json.Number
import Scaffold.Json.Reader
import Scaffold.Json.Token
import Scaffold.Json.Writer
import Scaffold.Main
import Scaffold.Member
import Scaffold.Metadata.Decl
import Scaffold.Metadata.Directive
import Scaffold.Metadata.Document
import Scaffold.Metadata.Target
import Scaffold.Metadata.Ty
import Scaffold.Pass
import Scaffold.Plan
import Scaffold.Projection.Container
import Scaffold.Projection.Script
import Scaffold.Projection.Union
import Scaffold.Projection.Walk
import Scaffold.Proofs.Abandoning
import Scaffold.Proofs.Ancestry
import Scaffold.Proofs.Assigning
import Scaffold.Proofs.Bracketing
import Scaffold.Proofs.Checking
import Scaffold.Proofs.Comparing
import Scaffold.Proofs.ComparisonOrder
import Scaffold.Proofs.Copying
import Scaffold.Proofs.Delegating
import Scaffold.Proofs.Describing
import Scaffold.Proofs.Distinct
import Scaffold.Proofs.Documents
import Scaffold.Proofs.Emitting
import Scaffold.Proofs.Enclosing
import Scaffold.Proofs.Enrolling
import Scaffold.Proofs.Entitlement
import Scaffold.Proofs.Equality
import Scaffold.Proofs.Equating
import Scaffold.Proofs.Exposing
import Scaffold.Proofs.Faults
import Scaffold.Proofs.Forms
import Scaffold.Proofs.Grouping
import Scaffold.Proofs.Halting
import Scaffold.Proofs.Hashing
import Scaffold.Proofs.Identifiers
import Scaffold.Proofs.Layering
import Scaffold.Proofs.Lexing
import Scaffold.Proofs.Likeness
import Scaffold.Proofs.Lineage
import Scaffold.Proofs.Merging
import Scaffold.Proofs.Naming
import Scaffold.Proofs.OrderIndependence
import Scaffold.Proofs.Outward
import Scaffold.Proofs.Overwriting
import Scaffold.Proofs.Parsing
import Scaffold.Proofs.ProjectionOrder
import Scaffold.Proofs.PropertyOrder
import Scaffold.Proofs.Rebinding
import Scaffold.Proofs.Recording
import Scaffold.Proofs.Redeclaration
import Scaffold.Proofs.Registering
import Scaffold.Proofs.Rendering
import Scaffold.Proofs.Reordering
import Scaffold.Proofs.Replanning
import Scaffold.Proofs.Reprojection
import Scaffold.Proofs.Restoring
import Scaffold.Proofs.Rooting
import Scaffold.Proofs.Running
import Scaffold.Proofs.Scoping
import Scaffold.Proofs.Separating
import Scaffold.Proofs.Shaping
import Scaffold.Proofs.Stacking
import Scaffold.Proofs.Touring
import Scaffold.Proofs.Traversal
import Scaffold.Proofs.Unfolding
import Scaffold.Proofs.Updating
import Scaffold.Proofs.Values
import Scaffold.Proofs.Walking
import Scaffold.Proofs.Writing
import Scaffold.Registry
import Scaffold.Roster
import Scaffold.Settings
import Scaffold.Settings.Text
import Scaffold.Settings.Written
import Scaffold.Survey
import Scaffold.Target
import Scaffold.Text.Bits
import Scaffold.Text.Blank
import Scaffold.Text.Dotted
import Scaffold.Text.Hex
import Scaffold.Text.PathName
import Scaffold.Text.Quoted
import Scaffold.Text.Unshown
import Scaffold.Toml.Moment
import Scaffold.Toml.Reader
import Scaffold.Toml.Scalar
import Scaffold.Toml.Section
import Scaffold.Toml.Token
import Scaffold.Tree
import Scaffold.Tree.Mismatch
import Scaffold.Tree.Record
import Scaffold.Ty
