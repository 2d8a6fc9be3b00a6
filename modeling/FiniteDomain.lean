import FiniteDomain.Propagation.Scripted
import FiniteDomain.Report.Audience
import FiniteDomain.Proofs.Store.Committing
import FiniteDomain.Proofs.Model.Narrowing
import FiniteDomain.Proofs.Propagation.Waking
import FiniteDomain.Proofs.Solver.Termination
import FiniteDomain.Proofs.Search.Abandoned
import FiniteDomain.Proofs.Solver.Driving
import FiniteDomain.Proofs.Solver.Confluence
import FiniteDomain.Proofs.Solver.Repeated
import FiniteDomain.Proofs.Propagation.Discreet
import FiniteDomain.Proofs.Search.Accounting
import FiniteDomain.Proofs.Search.Atop
import FiniteDomain.Proofs.Search.Limits
import FiniteDomain.Proofs.Search.Nesting
import FiniteDomain.Proofs.Constraint.Consistency
import FiniteDomain.Proofs.Constraint.Intervals
import FiniteDomain.Proofs.Constraint.Machine
import FiniteDomain.Proofs.Constraint.Entailment
import FiniteDomain.Proofs.Solver.Units
import FiniteDomain.Proofs.Branch.Splitting
import FiniteDomain.Proofs.Search.Exhaustion
import FiniteDomain.Proofs.Store.Trail
import FiniteDomain.Proofs.Domain.Machine
import FiniteDomain.Proofs.Search.Pacing
