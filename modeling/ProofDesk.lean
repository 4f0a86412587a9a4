import ProofDesk.Main
import ProofDesk.Proofs.Chain.Completion
import ProofDesk.Proofs.Chain.Reload
import ProofDesk.Proofs.Chain.Soundness
import ProofDesk.Proofs.Chain.Ties
import ProofDesk.Proofs.Checkable
import ProofDesk.Proofs.Completion
import ProofDesk.Proofs.Decoding
import ProofDesk.Proofs.Entailment
import ProofDesk.Proofs.Formula.Faults
import ProofDesk.Proofs.Formula.Marking
import ProofDesk.Proofs.Formula.Parentheses
import ProofDesk.Proofs.Generated
import ProofDesk.Proofs.Identity
import ProofDesk.Proofs.Label.Shift
import ProofDesk.Proofs.Law.Counter
import ProofDesk.Proofs.Law.Inverse
import ProofDesk.Proofs.Law.Outermost
import ProofDesk.Proofs.Locality
import ProofDesk.Proofs.Misuse
import ProofDesk.Proofs.Offered
import ProofDesk.Proofs.Repeat
