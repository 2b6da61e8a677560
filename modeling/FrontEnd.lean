import FrontEnd.Lexer.Cursor
import FrontEnd.Main
import FrontEnd.Proofs.Precedence
import FrontEnd.Proofs.Language
import FrontEnd.Proofs.Barrier
import FrontEnd.Proofs.Lexemes
import FrontEnd.Proofs.WellFormed
import FrontEnd.Proofs.RoundTrip
import FrontEnd.Proofs.Tiling
import FrontEnd.Proofs.CorrectPrefix
import FrontEnd.Proofs.Rounds
import FrontEnd.Proofs.Blocks
import FrontEnd.Proofs.SkippedValues
import FrontEnd.Proofs.History
import FrontEnd.Proofs.LongestMatch
import FrontEnd.Proofs.Termination
import FrontEnd.Proofs.ReadingOrder
import FrontEnd.Proofs.SemicolonOmission
import FrontEnd.Proofs.OperatorTables
import FrontEnd.Proofs.Blame
import FrontEnd.Proofs.Log
import FrontEnd.Proofs.Lines
import FrontEnd.Proofs.Caret
import FrontEnd.Proofs.Numerals
import FrontEnd.Proofs.Tips
import FrontEnd.Proofs.Scanning
import FrontEnd.Proofs.Cursors
import FrontEnd.Proofs.InputLines
import FrontEnd.Proofs.Answers
import FrontEnd.Proofs.Sessions
import FrontEnd.Proofs.TokenPrompt
