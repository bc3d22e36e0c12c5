import Plume.Editor.Page
import Plume.Main
import Plume.Proofs.Grammar
import Plume.Proofs.Remainder
import Plume.Proofs.Acceptance
import Plume.Proofs.Canonical
import Plume.Proofs.Shape
import Plume.Proofs.Placement
import Plume.Proofs.Layout
import Plume.Proofs.Writing
import Plume.Proofs.Lockstep
import Plume.Proofs.Sequencing
import Plume.Proofs.Unrolling
import Plume.Proofs.Stepping
import Plume.Proofs.Binding
import Plume.Proofs.Termination
import Plume.Proofs.Preservation
import Plume.Proofs.Lengths
import Plume.Proofs.Exactness
import Plume.Proofs.Comparing
import Plume.Proofs.Transitivity
import Plume.Proofs.Repetition
import Plume.Proofs.Reporting
import Plume.Proofs.Flattening
import Plume.Proofs.Scanning
import Plume.Proofs.Lossless
import Plume.Proofs.Grafting
import Plume.Proofs.Joining
import Plume.Proofs.Munching
import Plume.Proofs.Spacing
import Plume.Proofs.Provenance
import Plume.Proofs.Rounding
import Plume.Proofs.Numerals
import Plume.Proofs.Outlines
import Plume.Proofs.Overflow
import Plume.Proofs.Sharing
import Plume.Proofs.Invariance
import Plume.Proofs.Noninterference
import Plume.Proofs.Splicing
import Plume.Proofs.Categories
import Plume.Proofs.Rounds
import Plume.Proofs.Locating
import Plume.Proofs.Editing
import Plume.Proofs.Indenting
import Plume.Proofs.Nesting
import Plume.Proofs.Literals
import Plume.Proofs.Panes
import Plume.Proofs.Nearest
import Plume.Proofs.Shortest
import Plume.Proofs.FloatText
