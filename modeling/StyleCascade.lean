import StyleCascade.Channel.Link
import StyleCascade.Main
import StyleCascade.Proofs.Freshness
import StyleCascade.Proofs.Handles
import StyleCascade.Proofs.Overlays
import StyleCascade.Proofs.SelectorMeaning
import StyleCascade.Proofs.MatchedRules
import StyleCascade.Proofs.PreviousStyle
import StyleCascade.Proofs.SheetPriority
import StyleCascade.Proofs.Unsettled
import StyleCascade.Proofs.DirtyPass
import StyleCascade.Proofs.Correlation
import StyleCascade.Proofs.LinkCalls
import StyleCascade.Proofs.CutStreams
import StyleCascade.Proofs.SelectorText
import StyleCascade.Proofs.RuleNumbers
import StyleCascade.Proofs.MediaGrammar
import StyleCascade.Proofs.SheetOwners
import StyleCascade.Proofs.PendingUpdates
import StyleCascade.Proofs.LateViews
import StyleCascade.Proofs.InspectorText
import StyleCascade.Proofs.ReportFrame
import StyleCascade.Proofs.RestyleOrder
import StyleCascade.Proofs.MediaOperands
import StyleCascade.Proofs.NameLists
import StyleCascade.Proofs.PushOrder
import StyleCascade.Proofs.ListenerEntries
import StyleCascade.Proofs.Scores
import StyleCascade.Proofs.SelectorChains
import StyleCascade.Proofs.SheetContents
import StyleCascade.Proofs.TreeBuilding
import StyleCascade.Proofs.Specificity
import StyleCascade.Proofs.AspectRatios
import StyleCascade.Proofs.Merging
import StyleCascade.Proofs.KeyTables
import StyleCascade.Proofs.MediaPositions
