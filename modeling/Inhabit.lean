import Inhabit.Parameters.Settings
import Inhabit.Report.Failure
import Inhabit.Report.Log
import Inhabit.Search.Enumeration
import Inhabit.Search.Synthesis
import Inhabit.Solving.Scripted
import Inhabit.Solving.Weakening
import Inhabit.Proofs.Simplification.MostGeneral
import Inhabit.Proofs.Simplification.Divergence
import Inhabit.Proofs.Scoping.Qualifiers
import Inhabit.Proofs.Naming.ArgumentRenaming
import Inhabit.Proofs.Unknowns.Requests
import Inhabit.Proofs.Unknowns.Solved
import Inhabit.Proofs.Faults.Outcomes
import Inhabit.Proofs.Search.Isolation
import Inhabit.Proofs.Search.Paths
import Inhabit.Proofs.Solving.Survivors
import Inhabit.Proofs.Search.Clauses
import Inhabit.Proofs.Faults.Stopping
import Inhabit.Proofs.Guards.Scopes
import Inhabit.Proofs.Guards.Paths
import Inhabit.Proofs.Guards.Synthesis
import Inhabit.Proofs.Forms.Budgets
import Inhabit.Proofs.Forms.WellFormed
import Inhabit.Proofs.Recursion.Descent
import Inhabit.Proofs.Enumeration.Completeness
import Inhabit.Proofs.Solving.Renaming
import Inhabit.Proofs.Solving.Stepwise
import Inhabit.Proofs.Sorts.Sessions
import Inhabit.Proofs.Faults.Stuck
import Inhabit.Proofs.Simplification.Bindings
import Inhabit.Proofs.Matching.Binders
import Inhabit.Proofs.Subtyping.Preorder
import Inhabit.Proofs.Simplification.ShapeChecks
import Inhabit.Proofs.Simplification.Reconciliation
import Inhabit.Proofs.Validity.Decisions
import Inhabit.Proofs.Solving.Pruning
import Inhabit.Proofs.Solving.Rounds
import Inhabit.Proofs.Search.Repetition
import Inhabit.Proofs.Substitution.Instantiation
import Inhabit.Proofs.Substitution.Solutions
import Inhabit.Proofs.Naming.Occurrences
import Inhabit.Proofs.Assignments.Early
import Inhabit.Proofs.Assignments.WellSorted
import Inhabit.Proofs.Assignments.Quantifiers
import Inhabit.Proofs.Scoping.Arities
import Inhabit.Proofs.Scoping.Rebinding
import Inhabit.Proofs.Recursion.Signatures
import Inhabit.Proofs.Validity.RenamedVariables
import Inhabit.Proofs.Printing.Structure
