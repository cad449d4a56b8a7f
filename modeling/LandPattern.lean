import LandPattern.Files
import LandPattern.Main
import LandPattern.Proofs.Json.Records
import LandPattern.Proofs.Run.Batches
import LandPattern.Proofs.Run.Budget
import LandPattern.Proofs.Run.Depth
import LandPattern.Proofs.Run.Doublings
import LandPattern.Proofs.Run.InPlace
import LandPattern.Proofs.Run.Layout
import LandPattern.Proofs.Run.Measures
import LandPattern.Proofs.Run.ReadsBack
import LandPattern.Proofs.Run.Rearranging
import LandPattern.Proofs.Run.Recorded
import LandPattern.Proofs.Run.Rounds
import LandPattern.Proofs.Run.Sizes
import LandPattern.Proofs.Run.Spared
import LandPattern.Proofs.Run.Straight
import LandPattern.Proofs.Run.Tracebacks
import LandPattern.Proofs.Run.Widening
import LandPattern.Proofs.Script.Labels
import LandPattern.Proofs.Script.Literals
import LandPattern.Proofs.Script.OpenBrackets
import LandPattern.Proofs.Script.Recovery
import LandPattern.Proofs.Script.Refusals
import LandPattern.Proofs.Script.RoundTrip
import LandPattern.Proofs.Values.Integers
import LandPattern.Proofs.Values.Places
import LandPattern.Proofs.Values.Sharing
import LandPattern.Proofs.Run.Calling
import LandPattern.Proofs.Values.Leaves
import LandPattern.Proofs.Run.Keywords
import LandPattern.Proofs.Values.Progressions
import LandPattern.Proofs.Values.Columns
import LandPattern.Proofs.Values.Comparisons
import LandPattern.Proofs.Run.Growing
import LandPattern.Proofs.Values.Writing
