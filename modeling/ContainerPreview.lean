import ContainerPreview.Forest.Show
import ContainerPreview.Forest.Walk
import ContainerPreview.Main
import ContainerPreview.Proofs.Forest.Linked
import ContainerPreview.Proofs.Forest.Live
import ContainerPreview.Proofs.Media.Screen
import ContainerPreview.Proofs.Toggle.Addition
import ContainerPreview.Proofs.Toggle.Preview
import ContainerPreview.Proofs.Toggle.Skipped
import ContainerPreview.Proofs.Toggle.Spared
import ContainerPreview.Proofs.Toggle.Twice
import ContainerPreview.Proofs.Value.Plain
import ContainerPreview.Proofs.Sheet.RoundTrip
import ContainerPreview.Proofs.Media.Combine
import ContainerPreview.Proofs.Media.Copy
import ContainerPreview.Proofs.Toggle.Processing
import ContainerPreview.Proofs.Value.Rearranged
import ContainerPreview.Proofs.Value.Settled
import ContainerPreview.Proofs.Toggle.Detection
import ContainerPreview.Proofs.Value.Tokens
import ContainerPreview.Proofs.Media.NormalForm
import ContainerPreview.Proofs.Selector.Closed
import ContainerPreview.Proofs.Selector.Conditions
import ContainerPreview.Proofs.Forest.Placement
import ContainerPreview.Proofs.Forest.Failure
import ContainerPreview.Proofs.Sheet.Extended
import ContainerPreview.Proofs.Forest.Visits
import ContainerPreview.Proofs.Forest.Clone
import ContainerPreview.Proofs.Chain.Frames
import ContainerPreview.Proofs.Options.Resolved
import ContainerPreview.Proofs.Selector.Leading
import ContainerPreview.Proofs.Toggle.Watched
import ContainerPreview.Proofs.Value.Turns
import ContainerPreview.Proofs.Text.Parts
import ContainerPreview.Proofs.Sheet.Grammar
import ContainerPreview.Proofs.CommandLine.Agreement
import ContainerPreview.Proofs.Worker.Pass
