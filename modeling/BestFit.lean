import BestFit.Handle
import BestFit.Primitive
import BestFit.TypeDecl
import BestFit.Ctor
import BestFit.Catalog
import BestFit.Catalog.Table
import BestFit.Catalog.Builtin
import BestFit.Conversion
import BestFit.Applicability
import BestFit.Specificity
import BestFit.Exposure
import BestFit.Binary
import BestFit.Datum
import BestFit.Datum.Widening
import BestFit.Failable
import BestFit.Failable.Pipeline
import BestFit.Failable.Formula
import BestFit.Failable.Relay
import BestFit.Shaping
import BestFit.Store
import BestFit.Store.Declaring
import BestFit.Store.Unlocking
import BestFit.Store.Instantiation
import BestFit.Json.Numeral
import BestFit.Json.Quoted
import BestFit.Json.Token
import BestFit.Policy
import BestFit.Policy.Document
import BestFit.Factory
import BestFit.Factory.Selection
import BestFit.Factory.Construction
import BestFit.Factory.Recording
import BestFit.Workspace
import BestFit.Text.Blank
import BestFit.Diagnostics
import BestFit.Proofs.Conversion.Reference
import BestFit.Proofs.Conversion.Rules
import BestFit.Proofs.Conversion.Hierarchy
import BestFit.Proofs.Conversion.Detours
import BestFit.Proofs.Store.Growth
import BestFit.Proofs.Store.Invariant
import BestFit.Proofs.Store.Reachable
import BestFit.Proofs.Store.Additions
import BestFit.Proofs.Store.Stability
import BestFit.Proofs.Shaping.Effects
import BestFit.Proofs.Store.Steady
import BestFit.Proofs.Selection.Applicability
import BestFit.Proofs.Selection.Specificity
import BestFit.Proofs.Selection.Usability
import BestFit.Proofs.Selection.Optimality
import BestFit.Proofs.Shaping.Types
import BestFit.Proofs.Store.Interning
import BestFit.Proofs.Store.Names
import BestFit.Proofs.Store.Admission
import BestFit.Proofs.Store.Tables
import BestFit.Proofs.Shaping.Acceptance
import BestFit.Proofs.Shaping.Gathering
import BestFit.Proofs.Shaping.Fitting
import BestFit.Proofs.Shaping.Refusal
import BestFit.Proofs.Shaping.Accord
import BestFit.Proofs.Shaping.Trailing
import BestFit.Proofs.Shaping.Idempotence
import BestFit.Proofs.Construction.Calls
import BestFit.Proofs.Construction.Arguments
import BestFit.Proofs.Construction.Outcome
import BestFit.Proofs.Construction.Agreement
import BestFit.Proofs.Construction.Exactness
import BestFit.Proofs.Construction.Rejection
import BestFit.Proofs.Selection.Precedence
import BestFit.Proofs.Selection.Stability
import BestFit.Proofs.Store.Consistency
import BestFit.Proofs.Conversion.Characterization
import BestFit.Proofs.Conversion.Order
import BestFit.Proofs.Conversion.Interfaces
import BestFit.Proofs.Conversion.Termination
import BestFit.Proofs.Selection.Ranking
import BestFit.Proofs.Selection.Leniency
import BestFit.Proofs.Access.Descriptions
import BestFit.Proofs.Access.Sessions
import BestFit.Proofs.Access.Permanence
import BestFit.Proofs.Access.Workspaces
import BestFit.Proofs.Access.Scope
import BestFit.Proofs.Access.Footprint
import BestFit.Proofs.Access.Nesting
import BestFit.Proofs.Failable.Recording
import BestFit.Proofs.Failable.Sequences
import BestFit.Proofs.Failable.Formulas
import BestFit.Proofs.Json.Grammar
import BestFit.Proofs.Json.Quoting
import BestFit.Proofs.Json.Lexing
import BestFit.Proofs.Policy.Documents
import BestFit.Proofs.Policy.Acceptance
