import SelectorCalculus.Config.Basic
import SelectorCalculus.Config.Read
import SelectorCalculus.Extension.Apply
import SelectorCalculus.Extension.CompoundIndex
import SelectorCalculus.Extension.Event
import SelectorCalculus.Extension.Mode
import SelectorCalculus.Extension.Registry
import SelectorCalculus.Extension.Trim
import SelectorCalculus.Logging
import SelectorCalculus.Proofs.ElementTree
import SelectorCalculus.Proofs.Reach
import SelectorCalculus.Selector.Basic
import SelectorCalculus.Selector.Equality
import SelectorCalculus.Selector.Interpretation
import SelectorCalculus.Selector.Key
import SelectorCalculus.Selector.Outline
import SelectorCalculus.Selector.Pruning
import SelectorCalculus.Selector.Reader
import SelectorCalculus.Selector.Render
import SelectorCalculus.Selector.Sense
import SelectorCalculus.Selector.Specificity
import SelectorCalculus.Selector.Superselector
import SelectorCalculus.Selector.Token
import SelectorCalculus.Selector.Unify
import SelectorCalculus.Selector.Visibility
import SelectorCalculus.Text.Blank
import SelectorCalculus.Text.Folding
import SelectorCalculus.Text.Identifier
import SelectorCalculus.Text.Outline
import SelectorCalculus.Text.Printable
import SelectorCalculus.Text.Quoted
import SelectorCalculus.Text.Template
import SelectorCalculus.Weave.Basic
import SelectorCalculus.Weave.Choices
import SelectorCalculus.Weave.Combinators
import SelectorCalculus.Weave.CommonSubsequence
import SelectorCalculus.Yaml.Decode
import SelectorCalculus.Yaml.Node
import SelectorCalculus.Yaml.Resolve
import SelectorCalculus.Yaml.ScalarText
import SelectorCalculus.Yaml.Source
import SelectorCalculus.Yaml.Token
import SelectorCalculus.Proofs.EqualSelectors
import SelectorCalculus.Proofs.CompoundMeaning
import SelectorCalculus.Proofs.ExtensionSteps
import SelectorCalculus.Proofs.ExtensionMeaning
import SelectorCalculus.Proofs.SuperselectorMeaning
import SelectorCalculus.Proofs.Chains
import SelectorCalculus.Proofs.SuperselectorGaps
import SelectorCalculus.Proofs.Trails
import SelectorCalculus.Proofs.TrailMeaning
import SelectorCalculus.Proofs.Interleaving
import SelectorCalculus.Proofs.UnifyMeaning
import SelectorCalculus.Proofs.MirroredTrails
import SelectorCalculus.Proofs.UnifyGaps
import SelectorCalculus.Proofs.Disjointness
import SelectorCalculus.Proofs.DisjointnessGaps
import SelectorCalculus.Proofs.EqualityLaws
import SelectorCalculus.Proofs.CompoundOrder
import SelectorCalculus.Proofs.DescendantPaths
import SelectorCalculus.Proofs.ExtendedLists
import SelectorCalculus.Proofs.ExtensionTermination
import SelectorCalculus.Proofs.SharedKeys
import SelectorCalculus.Proofs.IndexRuns
import SelectorCalculus.Proofs.UnifiedCompounds
import SelectorCalculus.Proofs.ReadableTexts
import SelectorCalculus.Proofs.LabelKeys
import SelectorCalculus.Proofs.KeyReading
import SelectorCalculus.Proofs.GluedKeys
import SelectorCalculus.Proofs.ThreadedPaths
import SelectorCalculus.Proofs.NestedChecks
import SelectorCalculus.Proofs.SuperselectorOrder
import SelectorCalculus.Proofs.RegularSelectors
import SelectorCalculus.Proofs.ExtensionReports
import SelectorCalculus.Proofs.RuleOrder
import SelectorCalculus.Proofs.NestedMeaning
import SelectorCalculus.Proofs.PruningSteps
import SelectorCalculus.Proofs.PlaceholderCleanup
import SelectorCalculus.Proofs.TokenReading
import SelectorCalculus.Proofs.ReadingBack
import SelectorCalculus.Proofs.DescentEmbeddings
import SelectorCalculus.Proofs.NestedSoundness
import SelectorCalculus.Proofs.CallHistories
import SelectorCalculus.Proofs.MediaReach
import SelectorCalculus.Proofs.FoundTargets
import SelectorCalculus.Proofs.TrimmedLists
import SelectorCalculus.Proofs.UnifiedBelow
import SelectorCalculus.Proofs.RootOutermost
import SelectorCalculus.Proofs.EveryDepth
import SelectorCalculus.Proofs.RepeatedPruning
import SelectorCalculus.Proofs.VisibleParts
import SelectorCalculus.Proofs.TwinSelectors
import SelectorCalculus.Proofs.EqualChecks
import SelectorCalculus.Proofs.AttainableWeights
import SelectorCalculus.Proofs.RefusedTargets
import SelectorCalculus.Proofs.UnifiedWeights
import SelectorCalculus.Proofs.CommonChains
import SelectorCalculus.Proofs.WeaveTermination
import SelectorCalculus.Proofs.TotalReading
import SelectorCalculus.Proofs.ConfigRoundTrip
import SelectorCalculus.Proofs.Picks
