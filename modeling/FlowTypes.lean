import FlowTypes.Binary64.Bits
import FlowTypes.Expr.Text
import FlowTypes.Main
import FlowTypes.Node.Edge
import FlowTypes.Proofs.IntersectionMembership
import FlowTypes.Ty.Difference
import FlowTypes.Proofs.ExactSteps
import FlowTypes.Proofs.SeparateNumbers
import FlowTypes.Proofs.NormalNumbers
import FlowTypes.Proofs.SteadyNumbers
import FlowTypes.Proofs.CanonicalUniqueness
import FlowTypes.Proofs.RegularTypes
import FlowTypes.Proofs.InclusionComplete
import FlowTypes.Proofs.UnionBound
import FlowTypes.Proofs.CanonicalIdempotence
import FlowTypes.Proofs.TypeUniqueness
import FlowTypes.Proofs.Lattice
import FlowTypes.Proofs.Difference
import FlowTypes.Proofs.EdgeClassification
import FlowTypes.Proofs.Queries
import FlowTypes.Proofs.Remembering
import FlowTypes.Proofs.ResolutionSteps
import FlowTypes.Proofs.JointCover
import FlowTypes.Proofs.FirmPoints
import FlowTypes.Proofs.DifferenceInclusion
import FlowTypes.Proofs.ArithmeticOrder
import FlowTypes.Proofs.WellFormedArithmetic
import FlowTypes.Proofs.ArithmeticSoundness
import FlowTypes.Proofs.NormalTypes
import FlowTypes.Proofs.ParsedTypes
import FlowTypes.Proofs.EvaluatedTypes
import FlowTypes.Proofs.NodeOutputs
import FlowTypes.Proofs.Minima
import FlowTypes.Proofs.SteadyArithmetic
import FlowTypes.Proofs.Extremes
import FlowTypes.Proofs.Selection
import FlowTypes.Proofs.MonotoneHulls
import FlowTypes.Proofs.MonotonePoints
import FlowTypes.Proofs.MonotoneProducts
import FlowTypes.Proofs.MonotoneRounding
import FlowTypes.Proofs.MonotoneBuiltins
import FlowTypes.Proofs.TypeText
import FlowTypes.Proofs.Grammar
import FlowTypes.Proofs.GrammarComplete
import FlowTypes.Proofs.Spellings
import FlowTypes.Proofs.PhraseText
import FlowTypes.Proofs.NumberTypeText
import FlowTypes.Proofs.NestingDepth
import FlowTypes.Proofs.WrittenExpressions
import FlowTypes.Proofs.ExpressionText
import FlowTypes.Proofs.ExactImages
import FlowTypes.Proofs.NonemptyResults
import FlowTypes.Proofs.ExtremeLattice
import FlowTypes.Proofs.IntegerRemoval
import FlowTypes.Proofs.MemberOrder
import FlowTypes.Proofs.CommutativeArithmetic
import FlowTypes.Proofs.ReadDefinitions
import FlowTypes.Proofs.RecordFields
import FlowTypes.Proofs.LexicalCut
import FlowTypes.Proofs.DefinitionGrammar
import FlowTypes.Proofs.RegistryHistory
import FlowTypes.Proofs.LocatedErrors
import FlowTypes.Proofs.MovedTokens
import FlowTypes.Proofs.EnclosedScrutinee
import FlowTypes.Proofs.NearestIntegers
import FlowTypes.Proofs.CanonicalOrder
