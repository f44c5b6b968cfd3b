import DefaultLowering.Main
import DefaultLowering.Proofs.Evaluation
import DefaultLowering.Proofs.SharedCache
import DefaultLowering.Proofs.FlatNames
import DefaultLowering.Proofs.Reordering
import DefaultLowering.Proofs.Findings
import DefaultLowering.Proofs.Receiver
import DefaultLowering.Proofs.Scoping
import DefaultLowering.Proofs.Referring
import DefaultLowering.Proofs.DepthFirst
import DefaultLowering.Proofs.Targets
import DefaultLowering.Proofs.Verdicts
import DefaultLowering.Proofs.Visits
import DefaultLowering.Proofs.InPlace
import DefaultLowering.Proofs.Progress
import DefaultLowering.Proofs.Respacing
