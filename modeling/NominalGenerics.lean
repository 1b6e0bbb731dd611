import NominalGenerics.Assignability
import NominalGenerics.Bounds
import NominalGenerics.Catalog.Basic
import NominalGenerics.Catalog.Build
import NominalGenerics.Catalog.Decoding
import NominalGenerics.Collection
import NominalGenerics.Command
import NominalGenerics.CommandLine.Invocation
import NominalGenerics.CommandLine.Run
import NominalGenerics.CommandLine.Words
import NominalGenerics.ConstraintCheck
import NominalGenerics.Fault
import NominalGenerics.Guard
import NominalGenerics.Hierarchy
import NominalGenerics.Inference
import NominalGenerics.Json.Basic
import NominalGenerics.Json.Decoding
import NominalGenerics.Json.Reader
import NominalGenerics.Main
import NominalGenerics.NamePool
import NominalGenerics.Primitive
import NominalGenerics.Proofs.ArgumentOrder
import NominalGenerics.Proofs.AssignabilityCheck
import NominalGenerics.Proofs.Bootstrap
import NominalGenerics.Proofs.BoundCollection
import NominalGenerics.Proofs.Catalog.Building
import NominalGenerics.Proofs.Catalog.Flags
import NominalGenerics.Proofs.Catalog.Histories
import NominalGenerics.Proofs.Catalog.Operations
import NominalGenerics.Proofs.Catalog.Progress
import NominalGenerics.Proofs.CollectionCompleteness
import NominalGenerics.Proofs.Computation
import NominalGenerics.Proofs.ConcretePositions
import NominalGenerics.Proofs.ConstraintOrder
import NominalGenerics.Proofs.ConstraintSatisfaction
import NominalGenerics.Proofs.ConstraintTermination
import NominalGenerics.Proofs.Denotation
import NominalGenerics.Proofs.DetachedInference
import NominalGenerics.Proofs.DetachedTemplates
import NominalGenerics.Proofs.Embedding
import NominalGenerics.Proofs.ExactMatching
import NominalGenerics.Proofs.ExactParameters
import NominalGenerics.Proofs.Fixing
import NominalGenerics.Proofs.FixingCompleteness
import NominalGenerics.Proofs.Guard
import NominalGenerics.Proofs.GuardHistory
import NominalGenerics.Proofs.Hierarchy
import NominalGenerics.Proofs.Identity
import NominalGenerics.Proofs.IdentityWalk
import NominalGenerics.Proofs.InferenceOptions
import NominalGenerics.Proofs.InferenceProgress
import NominalGenerics.Proofs.InferenceSoundness
import NominalGenerics.Proofs.InheritedInterfaces
import NominalGenerics.Proofs.Interpretation
import NominalGenerics.Proofs.LazySubstitution
import NominalGenerics.Proofs.Matching
import NominalGenerics.Proofs.NamePool
import NominalGenerics.Proofs.NominalOrder
import NominalGenerics.Proofs.RelatedTemplates
import NominalGenerics.Proofs.Scoping
import NominalGenerics.Proofs.SharedGuard
import NominalGenerics.Proofs.Simulation
import NominalGenerics.Proofs.SolverEmbedding
import NominalGenerics.Proofs.Specialization
import NominalGenerics.Proofs.Store.Closing
import NominalGenerics.Proofs.Store.Coherence
import NominalGenerics.Proofs.Store.Completion
import NominalGenerics.Proofs.Store.ConstraintTargets
import NominalGenerics.Proofs.Store.Correspondence
import NominalGenerics.Proofs.Store.Declaration
import NominalGenerics.Proofs.Store.Derivation
import NominalGenerics.Proofs.Store.Exhaustion
import NominalGenerics.Proofs.Store.Expansion
import NominalGenerics.Proofs.Store.Growth
import NominalGenerics.Proofs.Store.HashConsing
import NominalGenerics.Proofs.Store.Inheritance
import NominalGenerics.Proofs.Store.InterfaceSets
import NominalGenerics.Proofs.Store.Outgrowth
import NominalGenerics.Proofs.Store.Progress
import NominalGenerics.Proofs.Store.Reachable
import NominalGenerics.Proofs.Store.Replacement
import NominalGenerics.Proofs.Store.Roles
import NominalGenerics.Proofs.Store.Settling
import NominalGenerics.Proofs.Store.Stability
import NominalGenerics.Proofs.Store.Worklist
import NominalGenerics.Proofs.Subtyping
import NominalGenerics.Proofs.SupertypePaths
import NominalGenerics.Proofs.SupertypeSubstitution
import NominalGenerics.Proofs.TypeExpr.Display
import NominalGenerics.Proofs.TypeExpr.Grammar
import NominalGenerics.Proofs.TypeExpr.Interning
import NominalGenerics.Proofs.TypeExpr.Meaning
import NominalGenerics.Proofs.TypeExpr.Reading
import NominalGenerics.Proofs.TypeExpr.Slices
import NominalGenerics.Proofs.UniformCollection
import NominalGenerics.Proofs.WitnessOrigins
import NominalGenerics.Report
import NominalGenerics.SpecialCast
import NominalGenerics.Store.Basic
import NominalGenerics.Store.Closure
import NominalGenerics.Store.Declaration
import NominalGenerics.Store.Interning
import NominalGenerics.Substitution
import NominalGenerics.Text.Alphanumeric
import NominalGenerics.Text.Blank
import NominalGenerics.TypeExpr.Basic
import NominalGenerics.TypeExpr.Reader
import NominalGenerics.Variance
