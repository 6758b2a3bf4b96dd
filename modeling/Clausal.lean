import Clausal.CommandLine
import Clausal.Main
import Clausal.Source.Tree
import Clausal.Proofs.ChainReading
import Clausal.Proofs.BlockScopes
import Clausal.Proofs.DisplayedTerms
import Clausal.Proofs.IncludedOnce
import Clausal.Proofs.VocabularyIndependence
import Clausal.Proofs.JoinedPrograms
import Clausal.Proofs.AccumulatedTexts
import Clausal.Proofs.FlatForms
import Clausal.Proofs.TokenSpans
import Clausal.Proofs.AnonymousVariables
import Clausal.Proofs.EqualTerms
import Clausal.Proofs.ParsedTerms
import Clausal.Proofs.Termination
import Clausal.Proofs.CheckedSessions
import Clausal.Proofs.BaselineLoading
import Clausal.Proofs.LayoutPrograms
import Clausal.Proofs.ShortenScopes
import Clausal.Proofs.TakenOperators
import Clausal.Proofs.LocatedPrograms
import Clausal.Proofs.UniformChains
import Clausal.Proofs.UnambiguousDisplay
import Clausal.Proofs.FirstDefinitions
import Clausal.Proofs.FixityDeclarations
import Clausal.Proofs.SteadyRuns
import Clausal.Proofs.FailedInclusions
import Clausal.Proofs.PathComponents
import Clausal.Proofs.NearbyUnits
import Clausal.Proofs.QuotedTexts
import Clausal.Proofs.QuotationLines
import Clausal.Proofs.StringLiterals
import Clausal.Proofs.ShownAttributes
import Clausal.Proofs.TermContents
import Clausal.Proofs.ListNotation
import Clausal.Proofs.PredicateDeclarations
import Clausal.Proofs.AttributeOrder
import Clausal.Proofs.NameRequests
import Clausal.Proofs.LiteralOrder
import Clausal.Proofs.LongestLexemes
import Clausal.Proofs.NamedStrings
