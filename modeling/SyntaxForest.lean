import SyntaxForest.Session.Run
import SyntaxForest.Proofs.BackLinks
import SyntaxForest.Proofs.Consistency
import SyntaxForest.Proofs.Copies
import SyntaxForest.Proofs.NormalForms
import SyntaxForest.Proofs.Atomicity
import SyntaxForest.Proofs.FieldTyping
import SyntaxForest.Proofs.Separation
import SyntaxForest.Proofs.NewestHolder
import SyntaxForest.Proofs.Locality
import SyntaxForest.Proofs.Refusals
import SyntaxForest.Proofs.AssemblyOrder
import SyntaxForest.Proofs.PlainLists
import SyntaxForest.Proofs.ChildReplacement
import SyntaxForest.Proofs.Departures
import SyntaxForest.Proofs.Substitutions
import SyntaxForest.Proofs.FirstDifferences
import SyntaxForest.Proofs.LazyBodies
import SyntaxForest.Proofs.Congruence
import SyntaxForest.Proofs.Interruptions
import SyntaxForest.Proofs.Ascents
import SyntaxForest.Proofs.LinkChecks
import SyntaxForest.Proofs.Visibility
import SyntaxForest.Proofs.Traversals
import SyntaxForest.Proofs.NestedSpans
import SyntaxForest.Proofs.Clearing
import SyntaxForest.Proofs.Scopes
import SyntaxForest.Proofs.ExchangedSides
import SyntaxForest.Proofs.Shortcuts
import SyntaxForest.Proofs.PostOrder
import SyntaxForest.Proofs.PristineNodes
import SyntaxForest.Proofs.MismatchTexts
