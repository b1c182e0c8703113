import ConsLisp.Main
import ConsLisp.Proofs.Aborts
import ConsLisp.Proofs.Activation
import ConsLisp.Proofs.Arithmetic
import ConsLisp.Proofs.Errors
import ConsLisp.Proofs.Framing
import ConsLisp.Proofs.Hygiene
import ConsLisp.Proofs.Immutability
import ConsLisp.Proofs.Isolation
import ConsLisp.Proofs.Limits
import ConsLisp.Proofs.Lists
import ConsLisp.Proofs.Logging
import ConsLisp.Proofs.Numerals
import ConsLisp.Proofs.Operands
import ConsLisp.Proofs.Reading
import ConsLisp.Proofs.Reference.Session
import ConsLisp.Proofs.Rereading
import ConsLisp.Proofs.Reversal
import ConsLisp.Proofs.Scoping
import ConsLisp.Proofs.Startup
import ConsLisp.Proofs.Termination
import ConsLisp.Proofs.Variables
