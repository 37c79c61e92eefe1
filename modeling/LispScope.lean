import LispScope.Analysis
import LispScope.Datum.Digest
import LispScope.Diagnostic.Report
import LispScope.Host.Standard
import LispScope.Proofs.Balance
import LispScope.Proofs.Enactment
import LispScope.Proofs.Growth
import LispScope.Proofs.Occurrence
import LispScope.Proofs.Path
import LispScope.Proofs.TailJump
import LispScope.Proofs.Usage
import LispScope.Proofs.Soundness
import LispScope.Proofs.Scope
import LispScope.Proofs.Origin
import LispScope.Proofs.Scoping
import LispScope.Proofs.Closure
import LispScope.Proofs.Position
import LispScope.Proofs.Qualification
import LispScope.Proofs.Equality
import LispScope.Proofs.Home
import LispScope.Proofs.Lifting
import LispScope.Proofs.Nesting
import LispScope.Proofs.Layout
import LispScope.Proofs.Likeness
import LispScope.Proofs.Marking
import LispScope.Proofs.Transfer
import LispScope.Proofs.Progress
import LispScope.Proofs.Lockstep
import LispScope.Proofs.Shape
import LispScope.Proofs.Accord
import LispScope.Proofs.Safety
import LispScope.Proofs.Unboxing
import LispScope.Proofs.Independence
import LispScope.Proofs.Weight
import LispScope.Proofs.Termination
import LispScope.Proofs.Storage
import LispScope.Proofs.Course
import LispScope.Proofs.Account
import LispScope.Proofs.Additions
import LispScope.Proofs.Expansion
import LispScope.Proofs.Location
import LispScope.Proofs.Interning
import LispScope.Proofs.Naming
import LispScope.Proofs.Spelling
import LispScope.Proofs.Grammar
import LispScope.Proofs.Cutting
import LispScope.Proofs.Printing
import LispScope.Proofs.Splitting
import LispScope.Proofs.Construction
import LispScope.Proofs.Placement
import LispScope.Proofs.Resemblance
import LispScope.Proofs.Tandem
import LispScope.Proofs.Conduct
import LispScope.Proofs.Resolution
import LispScope.Proofs.Recovery
import LispScope.Proofs.Hiding
import LispScope.Proofs.Overloading
import LispScope.Proofs.Clauses
import LispScope.Proofs.Caret
import LispScope.Proofs.Digest
import LispScope.Proofs.Shuffling
import LispScope.Proofs.Arrival
import LispScope.Proofs.Merging
