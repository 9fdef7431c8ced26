import Piecemeal.Main
import Piecemeal.Proofs.Flights
import Piecemeal.Proofs.Standard
import Piecemeal.Proofs.Resumption
import Piecemeal.Proofs.Layers
import Piecemeal.Proofs.Layout
import Piecemeal.Proofs.Moves
import Piecemeal.Proofs.Histories
import Piecemeal.Proofs.Typing
import Piecemeal.Proofs.Coherence
import Piecemeal.Proofs.Safety
import Piecemeal.Proofs.Isolation
import Piecemeal.Proofs.StateBounds
import Piecemeal.Proofs.Evaluation
import Piecemeal.Proofs.Performance
import Piecemeal.Proofs.Refinement
import Piecemeal.Proofs.Freshness
import Piecemeal.Proofs.Bisimulation
import Piecemeal.Proofs.Repetitions
import Piecemeal.Proofs.StreamCalls
import Piecemeal.Proofs.Deliveries
import Piecemeal.Proofs.Skipping
import Piecemeal.Proofs.SourceIndependence
import Piecemeal.Proofs.Answers
import Piecemeal.Proofs.Trees
import Piecemeal.Proofs.Segments
import Piecemeal.Proofs.RecordLists
import Piecemeal.Proofs.Promptness
import Piecemeal.Proofs.Listings
import Piecemeal.Proofs.Streams
import Piecemeal.Proofs.Successions
import Piecemeal.Proofs.DepthLimits
import Piecemeal.Proofs.Enactments
import Piecemeal.Proofs.Composites
import Piecemeal.Proofs.Adequacy
import Piecemeal.Proofs.Additions
import Piecemeal.Proofs.Congruence
import Piecemeal.Proofs.Spelling
import Piecemeal.Proofs.Nesting
import Piecemeal.Proofs.Returns
import Piecemeal.Proofs.Termination
import Piecemeal.Proofs.Markers
import Piecemeal.Proofs.Payloads
import Piecemeal.Proofs.Elements
import Piecemeal.Proofs.OrderedReads
import Piecemeal.Proofs.LayerStarts
import Piecemeal.Proofs.Reductions
import Piecemeal.Proofs.StreamAccounts
import Piecemeal.Proofs.HexText
import Piecemeal.Proofs.Sequencing
import Piecemeal.Proofs.Outlines
import Piecemeal.Proofs.ControlStack
