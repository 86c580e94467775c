import Monkey.Command
import Monkey.Evaluation
import Monkey.Main
import Monkey.Number
import Monkey.Number.Numeral
import Monkey.Tree.Parser
import Monkey.Tree.Printer
import Monkey.Token.Lexer
import Monkey.Proofs.Grammar
import Monkey.Proofs.ParserSound
import Monkey.Proofs.Lexing
import Monkey.Proofs.ParserComplete
import Monkey.Proofs.Render
import Monkey.Proofs.Change
import Monkey.Proofs.Frame
import Monkey.Proofs.ReturnLaw
import Monkey.Proofs.Nesting
import Monkey.Proofs.FirstError
import Monkey.Proofs.Contents
import Monkey.Proofs.Invariant
import Monkey.Proofs.Stored
import Monkey.Proofs.Spelling
import Monkey.Proofs.Inspected
import Monkey.Proofs.Printed
import Monkey.Proofs.Arithmetic
import Monkey.Proofs.Joined
import Monkey.Proofs.Unmentioned
import Monkey.Proofs.Lexemes
import Monkey.Proofs.Leads
import Monkey.Proofs.Moments
import Monkey.Proofs.Scoping
import Monkey.Proofs.Constants
import Monkey.Proofs.Parts
import Monkey.Proofs.Budget
import Monkey.Proofs.Termination
import Monkey.Proofs.Written
import Monkey.Proofs.Intact
import Monkey.Proofs.Shown
import Monkey.Proofs.Brackets
import Monkey.Proofs.Grouping
import Monkey.Proofs.Entries
import Monkey.Proofs.Residue
import Monkey.Proofs.Keys
import Monkey.Proofs.Valueless
import Monkey.Proofs.Parameters
import Monkey.Proofs.Sums
import Monkey.Proofs.Hidden
import Monkey.Proofs.Range
import Monkey.Proofs.Faults
import Monkey.Proofs.Halting
import Monkey.Proofs.Origins
