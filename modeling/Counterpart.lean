import Counterpart.Main
import Counterpart.Proofs.Address
import Counterpart.Proofs.Planning
import Counterpart.Proofs.Reachable
import Counterpart.Proofs.Substitution
import Counterpart.Proofs.Placing
import Counterpart.Proofs.Walk
import Counterpart.Proofs.Counterparts
import Counterpart.Proofs.Functions
import Counterpart.Proofs.Complete
import Counterpart.Proofs.Conversion
import Counterpart.Proofs.Queue
import Counterpart.Proofs.Run
import Counterpart.Proofs.Totality
import Counterpart.Proofs.Agreement
import Counterpart.Proofs.Copying
import Counterpart.Proofs.Coverage
import Counterpart.Proofs.Loading
import Counterpart.Proofs.Matching
import Counterpart.Proofs.QualifiedNames
import Counterpart.Proofs.References
import Counterpart.Proofs.Scoping
import Counterpart.Proofs.ParamNames
import Counterpart.Proofs.Commit
import Counterpart.Proofs.Imported
import Counterpart.Proofs.ReadBack
import Counterpart.Proofs.KeptNames
import Counterpart.Proofs.Renumbering
import Counterpart.Proofs.Placements
import Counterpart.Proofs.LoadOrder
import Counterpart.Proofs.BoundNames
import Counterpart.Proofs.Brackets
import Counterpart.Proofs.KnownNames
import Counterpart.Proofs.TakenPaths
import Counterpart.Proofs.ReadBackTypes
import Counterpart.Proofs.TypeParamLists
import Counterpart.Proofs.Replanning
import Counterpart.Proofs.PlannedFiles
import Counterpart.Proofs.QuotedNames
import Counterpart.Proofs.DepthFirst
import Counterpart.Proofs.BranchLines
import Counterpart.Proofs.Mentions
import Counterpart.Proofs.MentionedTokens
import Counterpart.Proofs.NeededImports
import Counterpart.Proofs.EntryArguments
import Counterpart.Proofs.Warnings
import Counterpart.Proofs.Templates
import Counterpart.Proofs.SkippedMembers
import Counterpart.Proofs.DefaultValues
import Counterpart.Proofs.ExistingNames
import Counterpart.Proofs.LambdaNames
import Counterpart.Proofs.CheckedSources
import Counterpart.Proofs.LinkedFiles
import Counterpart.Proofs.GroupEnds
import Counterpart.Proofs.ImportOrder
import Counterpart.Proofs.LineBreaks
import Counterpart.Proofs.WalkedSources
