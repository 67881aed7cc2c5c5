import SignReview.Intake
import SignReview.Amount.Pages
import SignReview.Transaction.Basic
import SignReview.Proofs.Json.Grammar
import SignReview.Proofs.Json.Tree
import SignReview.Proofs.Json.Scan
import SignReview.Proofs.Json.Spelling
import SignReview.Proofs.Json.Reading
import SignReview.Proofs.Json.Building
import SignReview.Proofs.Json.Layout
import SignReview.Json.Runs
import SignReview.Proofs.Json.Runs
import SignReview.Proofs.Json.Parsing
import SignReview.Proofs.Json.Navigation
import SignReview.Proofs.Json.Recovery
import SignReview.Proofs.Json.Compact
import SignReview.Proofs.Paging
import SignReview.Proofs.Turning
import SignReview.Proofs.Transaction.Validation
import SignReview.Proofs.SignDoc.Leaves
import SignReview.Proofs.SignDoc.Types
import SignReview.Proofs.SignDoc.Search
import SignReview.Proofs.Amount.Coins
import SignReview.Proofs.SignDoc.Sections
import SignReview.Proofs.Transaction.Contents
import SignReview.Proofs.Json.Subtree
import SignReview.Proofs.Leaf.Order
import SignReview.Proofs.Leaf.Find
import SignReview.Proofs.Leaf.Tiling
import SignReview.Proofs.SignDoc.Index
import SignReview.Proofs.Cbor.Series
import SignReview.Proofs.Screen.Layout
import SignReview.Proofs.Screen.Walk
import SignReview.Proofs.Transaction.Refusal
import SignReview.Proofs.Transaction.Screens
import SignReview.Proofs.Amount.Failures
import SignReview.Proofs.Transaction.Modes
import SignReview.Proofs.Transaction.Sessions
import SignReview.Proofs.Cbor.Encoding
import SignReview.Proofs.Screen.Encoding
import SignReview.Proofs.Transaction.Encoding
import SignReview.Proofs.Json.Sorted
import SignReview.Proofs.Json.Rearranging
import SignReview.Proofs.Json.Blanks
import SignReview.Proofs.Transaction.Tampering
import SignReview.Proofs.Leaf.Selection
import SignReview.Proofs.Leaf.Route
import SignReview.Proofs.Transaction.Paths
import SignReview.Proofs.Transaction.Hidden
import SignReview.Proofs.Json.Children
import SignReview.Proofs.Json.Canonical
import SignReview.Proofs.Amount.Numerals
import SignReview.Proofs.Amount.Pages
import SignReview.Proofs.Json.Budget
import SignReview.Proofs.Json.Completion
import SignReview.Proofs.Json.Truncation
import SignReview.Proofs.Screen.Described
import SignReview.Proofs.Screen.Pages
import SignReview.Proofs.Screen.Clamping
import SignReview.Proofs.Screen.Ascii
import SignReview.Proofs.Transaction.Expert
import SignReview.Proofs.Amount.Room
import SignReview.Proofs.Transaction.InPlace
