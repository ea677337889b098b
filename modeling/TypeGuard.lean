import TypeGuard.Eval
import TypeGuard.Expr.Renumber
import TypeGuard.Guard.Run
import TypeGuard.Number.Read
import TypeGuard.Ty.Literal
import TypeGuard.Proofs.Accessors
import TypeGuard.Proofs.Agreement
import TypeGuard.Proofs.AliasRoutes
import TypeGuard.Proofs.Bookkeeping
import TypeGuard.Proofs.Chasing
import TypeGuard.Proofs.Classification
import TypeGuard.Proofs.EntryPaths
import TypeGuard.Proofs.Flattening
import TypeGuard.Proofs.IdentityMapped
import TypeGuard.Proofs.Independence
import TypeGuard.Proofs.Inheritance
import TypeGuard.Proofs.Inlining
import TypeGuard.Proofs.KeyNames
import TypeGuard.Proofs.NameChains
import TypeGuard.Proofs.NearestFirst
import TypeGuard.Proofs.Recursion
import TypeGuard.Proofs.ShapeAlgebra
import TypeGuard.Proofs.StrictEquality
import TypeGuard.Proofs.Termination
import TypeGuard.Proofs.Unambiguous
