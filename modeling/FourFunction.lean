import FourFunction.Main
import FourFunction.Proofs.Arrangement
import FourFunction.Proofs.LinkFold
import FourFunction.Proofs.Precedence
import FourFunction.Proofs.Numeral
import FourFunction.Proofs.Pieces
import FourFunction.Proofs.MaximalRuns
import FourFunction.Proofs.SessionRun
import FourFunction.Proofs.Chaining
import FourFunction.Proofs.Rounding
import FourFunction.Proofs.WrittenNumeral
import FourFunction.Proofs.ReadNumber
import FourFunction.Proofs.JsonScalar
import FourFunction.Proofs.JsonComposite
import FourFunction.Proofs.SavedHistory
import FourFunction.Proofs.TextLines
import FourFunction.Proofs.Persistence
import FourFunction.Proofs.NewestEntries
import FourFunction.Proofs.Unchecked
import FourFunction.Proofs.ShownResult
import FourFunction.Proofs.SessionState
import FourFunction.Proofs.Concatenation
import FourFunction.Proofs.RunningTotal
import FourFunction.Proofs.TypedNumeral
import FourFunction.Proofs.TypedOntoAnswer
import FourFunction.Proofs.LoggedRun
import FourFunction.Proofs.HistoryRoundTrip
import FourFunction.Proofs.BoundedLog
import FourFunction.Proofs.TokenRoundTrip
import FourFunction.Proofs.OneLine
import FourFunction.Proofs.Document
import FourFunction.Proofs.Transcript
import FourFunction.Proofs.FiniteHistories
import FourFunction.Proofs.ExpressionLanguage
import FourFunction.Proofs.JoinedTexts
import FourFunction.Proofs.PrintedTokens
import FourFunction.Proofs.ExactValues
import FourFunction.Proofs.SignificantDigits
import FourFunction.Proofs.ShownValue
import FourFunction.Proofs.ZeroDivisor
import FourFunction.Proofs.DrivenScanner
import FourFunction.Proofs.SessionOrigin
import FourFunction.Proofs.ShownObjections
import FourFunction.Proofs.RefusedStart
import FourFunction.Proofs.AnswerLog
import FourFunction.Proofs.RefusedKeys
import FourFunction.Proofs.ShortestDigits
import FourFunction.Proofs.CanonicalText
