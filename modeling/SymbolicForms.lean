import SymbolicForms.FloatScalar
import SymbolicForms.Evaluation
import SymbolicForms.Occurrence
import SymbolicForms.Strategies
import SymbolicForms.Proofs.ExactNumbers
import SymbolicForms.Proofs.Meaning
import SymbolicForms.Proofs.Powers
import SymbolicForms.Proofs.ReducedTerms
import SymbolicForms.Proofs.PowerHistories
import SymbolicForms.Proofs.ExponentMaps
import SymbolicForms.Proofs.TermMeaning
import SymbolicForms.Proofs.ExpansionMeaning
import SymbolicForms.Proofs.CanonicalMeaning
import SymbolicForms.Proofs.KeyReading
import SymbolicForms.Proofs.SortedOrder
import SymbolicForms.Proofs.TermKeys
import SymbolicForms.Proofs.CollectedTerms
import SymbolicForms.Proofs.LikeTerms
import SymbolicForms.Proofs.ExpandedForm
import SymbolicForms.Proofs.LinearCombination
import SymbolicForms.Proofs.PolynomialExpansion
import SymbolicForms.Proofs.PolynomialIdentity
import SymbolicForms.Proofs.FieldMeaning
import SymbolicForms.Proofs.PassMeaning
import SymbolicForms.Proofs.TrigonometryMeaning
import SymbolicForms.Proofs.DivisionMeaning
import SymbolicForms.Proofs.SharedPowers
import SymbolicForms.Proofs.FactorMeaning
import SymbolicForms.Proofs.SignedAddends
import SymbolicForms.Proofs.TermAlgebra
import SymbolicForms.Proofs.FormalExpansion
import SymbolicForms.Proofs.CommonDivisors
import SymbolicForms.Proofs.FactorRoundTrip
import SymbolicForms.Proofs.ExponentialMeaning
import SymbolicForms.Proofs.FormsMeaning
import SymbolicForms.Proofs.StrategyMeaning
import SymbolicForms.Proofs.Names
import SymbolicForms.Proofs.PassNames
import SymbolicForms.Proofs.KeptParts
import SymbolicForms.Proofs.DistributedForm
import SymbolicForms.Proofs.SettledExpansion
import SymbolicForms.Proofs.CanonicalRounds
import SymbolicForms.Proofs.EvaluationSafety
import SymbolicForms.Proofs.TextGrammar
import SymbolicForms.Proofs.TextMeaning
import SymbolicForms.Proofs.IntegerForms
import SymbolicForms.Proofs.Nodes
import SymbolicForms.Proofs.ShrinkingPasses
import SymbolicForms.Proofs.ConstantFolding
import SymbolicForms.Proofs.UnitFactors
import SymbolicForms.Proofs.FoldedChains
import SymbolicForms.Proofs.MultipliedOut
import SymbolicForms.Proofs.CanonicalNormalForm
import SymbolicForms.Proofs.MessageLevels
import SymbolicForms.Proofs.DistinctForms
import SymbolicForms.Proofs.AngleMatches
import SymbolicForms.Proofs.SweptPatterns
import SymbolicForms.Proofs.TidyExpressions
import SymbolicForms.Proofs.PolynomialStrategies
import SymbolicForms.Proofs.LikeTermClasses
import SymbolicForms.Proofs.TermOrder
import SymbolicForms.Proofs.CancelledExponentials
import SymbolicForms.Proofs.ExponentialSurplus
import SymbolicForms.Proofs.CollectedFunctions
import SymbolicForms.Proofs.GroupLaws
import SymbolicForms.Proofs.GreatestFactor
