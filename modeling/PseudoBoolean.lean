import PseudoBoolean.Main
import PseudoBoolean.Digits
import PseudoBoolean.Gate
import PseudoBoolean.Matrix
import PseudoBoolean.Proofs.Polynomial.DomainExchange
import PseudoBoolean.Proofs.Polynomial.Uniqueness
import PseudoBoolean.Proofs.Polynomial.Renumbering
import PseudoBoolean.Proofs.Polynomial.ExhaustiveSearch
import PseudoBoolean.Proofs.Polynomial.FreeNumbers
import PseudoBoolean.Proofs.Model.Attainment
import PseudoBoolean.Proofs.Model.Refusal
import PseudoBoolean.Proofs.Model.Mirror
import PseudoBoolean.Proofs.Model.Recovery
import PseudoBoolean.Proofs.Model.Substitution
import PseudoBoolean.Proofs.Model.Diagnostics
import PseudoBoolean.Proofs.Polynomial.Provenance
import PseudoBoolean.Proofs.Document.SlackLabels
import PseudoBoolean.Proofs.Model.StableNumbers
import PseudoBoolean.Proofs.Command.VariableLimit
import PseudoBoolean.Proofs.Command.PrintedSolutions
import PseudoBoolean.Proofs.Command.Parameters
import PseudoBoolean.Proofs.Polynomial.Accumulation
import PseudoBoolean.Proofs.Polynomial.Powers
import PseudoBoolean.Proofs.Gate
import PseudoBoolean.Proofs.Matrix
import PseudoBoolean.Proofs.Digits
import PseudoBoolean.Proofs.Model.SlackWeights
import PseudoBoolean.Proofs.LabelSpelling
import PseudoBoolean.Proofs.Polynomial.Normalization
import PseudoBoolean.Proofs.Polynomial.CompiledEvaluation
import PseudoBoolean.Proofs.TermNormalForm
import PseudoBoolean.Proofs.Document.LabelRoundTrip
