import FormalLanguage.Automaton.Basic
import FormalLanguage.Automaton.Determinized
import FormalLanguage.Automaton.Edge
import FormalLanguage.Automaton.Policy
import FormalLanguage.Automaton.Records
import FormalLanguage.Automaton.Relation
import FormalLanguage.Event
import FormalLanguage.Grammar.Basic
import FormalLanguage.Grammar.Derivation
import FormalLanguage.Grammar.Draft
import FormalLanguage.Grammar.LeftCorner
import FormalLanguage.Grammar.Line
import FormalLanguage.Grammar.Lookahead
import FormalLanguage.Grammar.Records
import FormalLanguage.Grammar.Vocabulary
import FormalLanguage.Iteration.Exploration
import FormalLanguage.Iteration.Passes
import FormalLanguage.Iteration.Relaxation
import FormalLanguage.Order.KeyedSet
import FormalLanguage.Order.SortedSet
import FormalLanguage.Proofs.AcceptedLines
import FormalLanguage.Proofs.Arrivals
import FormalLanguage.Proofs.ClosurePasses
import FormalLanguage.Proofs.Closures
import FormalLanguage.Proofs.Codecs
import FormalLanguage.Proofs.Configurations
import FormalLanguage.Proofs.Conflicts
import FormalLanguage.Proofs.Construction
import FormalLanguage.Proofs.ConstructionRecords
import FormalLanguage.Proofs.CornerReadings
import FormalLanguage.Proofs.DeterministicRuns
import FormalLanguage.Proofs.DraftedRules
import FormalLanguage.Proofs.Drafts
import FormalLanguage.Proofs.EdgeQueries
import FormalLanguage.Proofs.EndMarkers
import FormalLanguage.Proofs.Exchange
import FormalLanguage.Proofs.FiledRules
import FormalLanguage.Proofs.FirstEquations
import FormalLanguage.Proofs.FirstFaults
import FormalLanguage.Proofs.FlaggedPasses
import FormalLanguage.Proofs.ForeignLetters
import FormalLanguage.Proofs.GrammarFaults
import FormalLanguage.Proofs.GrammarRecords
import FormalLanguage.Proofs.LeftCorners
import FormalLanguage.Proofs.MaximalMunch
import FormalLanguage.Proofs.NullableDerivations
import FormalLanguage.Proofs.Outgoing
import FormalLanguage.Proofs.ParallelRuns
import FormalLanguage.Proofs.PolicyFaults
import FormalLanguage.Proofs.Renaming
import FormalLanguage.Proofs.Search
import FormalLanguage.Proofs.SubsetConstruction
import FormalLanguage.Proofs.TextCuts
import FormalLanguage.Proofs.TextQueries
import FormalLanguage.Proofs.Transcripts
import FormalLanguage.Proofs.TransitiveClosure
import FormalLanguage.Proofs.WrittenRules
import FormalLanguage.Serial.Exchange
import FormalLanguage.Serial.Forms
import FormalLanguage.Text.Basic
