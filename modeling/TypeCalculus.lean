import TypeCalculus.Name
import TypeCalculus.Operator
import TypeCalculus.TypeId
import TypeCalculus.Shape
import TypeCalculus.Traits
import TypeCalculus.NameTable
import TypeCalculus.Expression.Node
import TypeCalculus.Fault
import TypeCalculus.Expression.Arena
import TypeCalculus.Store.Basic
import TypeCalculus.Store.Build
import TypeCalculus.Store.Subtype
import TypeCalculus.Store.Text
import TypeCalculus.Declarations
import TypeCalculus.Scope
import TypeCalculus.DepthLimit
import TypeCalculus.Evaluation.Error
import TypeCalculus.Evaluation.Operation
import TypeCalculus.Evaluation.Eval
import TypeCalculus.Session.Basic
import TypeCalculus.Session.Term
import TypeCalculus.Session.Step
import TypeCalculus.Proofs.Store.Growth
import TypeCalculus.Proofs.Evaluation.Resemblance
import TypeCalculus.Proofs.Evaluation.Lockstep
import TypeCalculus.Proofs.Evaluation.Stepwise
import TypeCalculus.Proofs.Evaluation.Stability
import TypeCalculus.Proofs.History
import TypeCalculus.Proofs.Store.WellFormed
import TypeCalculus.Proofs.Store.Reading
import TypeCalculus.Proofs.Store.Building
import TypeCalculus.Proofs.Store.Subtyping
import TypeCalculus.Proofs.Store.Lattice
import TypeCalculus.Proofs.Store.Unions
import TypeCalculus.Proofs.Store.Answers
import TypeCalculus.Proofs.Evaluation.Meaning
import TypeCalculus.Proofs.Evaluation.Realization
import TypeCalculus.Proofs.Evaluation.Transparency
import TypeCalculus.Proofs.Evaluation.Denotation
import TypeCalculus.Proofs.Evaluation.Defects
import TypeCalculus.Proofs.Evaluation.Limits
import TypeCalculus.Proofs.Evaluation.Misses
import TypeCalculus.Proofs.Evaluation.Reach
import TypeCalculus.Proofs.Evaluation.Safety
import TypeCalculus.Proofs.Evaluation.Coincidence
import TypeCalculus.Proofs.Evaluation.Renaming
import TypeCalculus.Proofs.Evaluation.Substitution
import TypeCalculus.Proofs.Evaluation.Laziness
import TypeCalculus.Proofs.Evaluation.Canonical
import TypeCalculus.Proofs.Evaluation.Distribution
import TypeCalculus.Proofs.Names
import TypeCalculus.Proofs.Expression.Requests
import TypeCalculus.Proofs.Expression.Heights
import TypeCalculus.Proofs.Evaluation.Levels
import TypeCalculus.Proofs.Evaluation.Lookups
import TypeCalculus.Proofs.Store.Hereditary
import TypeCalculus.Proofs.Evaluation.Unknowns
import TypeCalculus.Proofs.Evaluation.Nominals
import TypeCalculus.Proofs.Store.Wildcards
import TypeCalculus.Proofs.Store.Writing
import TypeCalculus.Proofs.Store.Rebuilding
import TypeCalculus.Proofs.Evaluation.Projection
import TypeCalculus.Proofs.Scopes
import TypeCalculus.Proofs.Store.Traits
import TypeCalculus.Proofs.Expression.Allocation
