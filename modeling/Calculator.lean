import Calculator.Binary64.Bits
import Calculator.Main
import Calculator.Proofs.Acceptance
import Calculator.Proofs.Drafts
import Calculator.Proofs.IntegerTrees
import Calculator.Proofs.Labels
import Calculator.Proofs.OutputOrder
import Calculator.Proofs.Overflow
import Calculator.Proofs.Substitution
import Calculator.Proofs.Tiling
import Calculator.Proofs.TreeValue
import Calculator.Proofs.Words
import Calculator.Proofs.Answers
import Calculator.Proofs.Commands
import Calculator.Proofs.Conversation
import Calculator.Proofs.Parity
import Calculator.Proofs.Safety
import Calculator.Proofs.Stopping
import Calculator.Proofs.FirstStray
import Calculator.Proofs.Lexemes
import Calculator.Proofs.Blocks
import Calculator.Proofs.Verdict
import Calculator.Proofs.LoneNumber
import Calculator.Proofs.Hundredths
import Calculator.Proofs.Alternation
import Calculator.Proofs.Arrangement
