import LoanScope.Main
import LoanScope.Proofs.Check.Agreement
import LoanScope.Proofs.Check.Conflicts
import LoanScope.Proofs.Check.Flows
import LoanScope.Proofs.Check.SinglePass
import LoanScope.Proofs.Check.Termination
import LoanScope.Proofs.Fixture.Faults
import LoanScope.Proofs.Fixture.Order
import LoanScope.Proofs.Fixture.RoundTrip
import LoanScope.Proofs.Fixture.Soundness
import LoanScope.Proofs.Fixture.Tidy
import LoanScope.Proofs.Fixture.Within
import LoanScope.Proofs.Function.ReadBack
import LoanScope.Proofs.Graph.DepthFirst
import LoanScope.Proofs.Graph.Runs
import LoanScope.Proofs.Place.Spelling
import LoanScope.Proofs.Place.Typing
import LoanScope.Proofs.Region.PassCount
import LoanScope.Proofs.Region.Runs
import LoanScope.Proofs.Renaming.Check
