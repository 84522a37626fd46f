import SciCalc.Binary64
import SciCalc.Builtin
import SciCalc.Decimal
import SciCalc.Elementary
import SciCalc.Error
import SciCalc.Expr
import SciCalc.Postfix
import SciCalc.Proofs.Acceptable
import SciCalc.Proofs.BitLength
import SciCalc.Proofs.Blank
import SciCalc.Proofs.Conversion
import SciCalc.Proofs.CorrectRounding
import SciCalc.Proofs.Counting
import SciCalc.Proofs.DecimalDigits
import SciCalc.Proofs.Erasing
import SciCalc.Proofs.EvaluationDepth
import SciCalc.Proofs.EvaluationErrors
import SciCalc.Proofs.ExactEvaluation
import SciCalc.Proofs.FiniteNumbers
import SciCalc.Proofs.FlooredDivision
import SciCalc.Proofs.FlooredRemainder
import SciCalc.Proofs.ForeignNames
import SciCalc.Proofs.Grammar
import SciCalc.Proofs.Growth
import SciCalc.Proofs.IntegerPower
import SciCalc.Proofs.Lexemes
import SciCalc.Proofs.LexicalGrammar
import SciCalc.Proofs.LiteralText
import SciCalc.Proofs.MessageText
import SciCalc.Proofs.ModeIndependence
import SciCalc.Proofs.NearestMultiple
import SciCalc.Proofs.NumeralGrammar
import SciCalc.Proofs.NumeralValue
import SciCalc.Proofs.Operations
import SciCalc.Proofs.PowerSign
import SciCalc.Proofs.PowersOfTen
import SciCalc.Proofs.Reentry
import SciCalc.Proofs.RootIndex
import SciCalc.Proofs.RoundTrip
import SciCalc.Proofs.RoundedPlaces
import SciCalc.Proofs.RoundingError
import SciCalc.Proofs.SessionRun
import SciCalc.Proofs.ShownText
import SciCalc.Proofs.SignificantDigits
import SciCalc.Proofs.Tangent
import SciCalc.Proofs.TokenText
import SciCalc.Proofs.TreeBuilding
import SciCalc.Proofs.TreeShape
import SciCalc.Proofs.TypedText
import SciCalc.Proofs.ValueStack
import SciCalc.Proofs.WholeValue
import SciCalc.Proofs.WindowRun
import SciCalc.Rounding
import SciCalc.Session
import SciCalc.Token
import SciCalc.Value
import SciCalc.Window
