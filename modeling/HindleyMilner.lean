import HindleyMilner.Main
import HindleyMilner.TyList
import HindleyMilner.Proofs.Subst
import HindleyMilner.Proofs.Occurrences
import HindleyMilner.Proofs.Unification
import HindleyMilner.Proofs.Compose
import HindleyMilner.Proofs.Apart
import HindleyMilner.Proofs.Recursion
import HindleyMilner.Proofs.Supply
import HindleyMilner.Proofs.TypeEnv
import HindleyMilner.Proofs.Typing
import HindleyMilner.Proofs.Runs
import HindleyMilner.Proofs.Patterns
import HindleyMilner.Proofs.RepeatedNames
import HindleyMilner.Proofs.Scoping
import HindleyMilner.Proofs.Generalization
import HindleyMilner.Proofs.Soundness
import HindleyMilner.Proofs.Completeness
import HindleyMilner.Proofs.SolvedForm
import HindleyMilner.Proofs.Scheme
import HindleyMilner.Proofs.Monomorphic
import HindleyMilner.Proofs.Outcomes
import HindleyMilner.Proofs.Unused
import HindleyMilner.Proofs.Renaming
import HindleyMilner.Proofs.Equivariance
import HindleyMilner.Proofs.Rendering
import HindleyMilner.Proofs.Declarations
import HindleyMilner.Proofs.Inertness
import HindleyMilner.Proofs.Freshness
import HindleyMilner.Proofs.FirstFailure
import HindleyMilner.Proofs.NestedLets
import HindleyMilner.Proofs.Reuse
import HindleyMilner.Proofs.Files
import HindleyMilner.Proofs.WellFormed
import HindleyMilner.Proofs.Decoding
import HindleyMilner.Proofs.Numerals
import HindleyMilner.Proofs.Format
import HindleyMilner.Proofs.LexicalScope
import HindleyMilner.Proofs.TypeErrors
import HindleyMilner.Proofs.TypeText
import HindleyMilner.Proofs.SourceText
import HindleyMilner.Proofs.Regrouping
