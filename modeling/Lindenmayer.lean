import Lindenmayer.Catalogue
import Lindenmayer.Document.Configuration
import Lindenmayer.Document.Drawing
import Lindenmayer.Plot.Gnuplot
import Lindenmayer.Plot.Hpgl
import Lindenmayer.Plot.Sink
import Lindenmayer.Proofs.Arrows
import Lindenmayer.Proofs.Contexts
import Lindenmayer.Proofs.Placement
import Lindenmayer.Proofs.Plotter
import Lindenmayer.Proofs.Strokes
import Lindenmayer.Proofs.Trail
import Lindenmayer.Proofs.Reading
import Lindenmayer.Proofs.Composition
import Lindenmayer.Proofs.Normalisation
import Lindenmayer.Proofs.Acceptance
import Lindenmayer.Proofs.Branches
import Lindenmayer.Proofs.Bounds
import Lindenmayer.Proofs.Primitives
import Lindenmayer.Proofs.Sweep
import Lindenmayer.Proofs.Generations
import Lindenmayer.Proofs.Plants
import Lindenmayer.Proofs.ContextFree
import Lindenmayer.Proofs.Choices
import Lindenmayer.Proofs.Interruption
import Lindenmayer.Proofs.Stages
import Lindenmayer.Proofs.Polygons
import Lindenmayer.Proofs.Evergreens
import Lindenmayer.Proofs.Failures
import Lindenmayer.Proofs.Succession
import Lindenmayer.Proofs.RuleSets
import Lindenmayer.Proofs.Configurations
import Lindenmayer.Proofs.Cancellation
import Lindenmayer.Proofs.OnePass
import Lindenmayer.Proofs.Lattice
import Lindenmayer.Proofs.Canvases
import Lindenmayer.Proofs.Growth
import Lindenmayer.Proofs.SideBySide
import Lindenmayer.Proofs.Figures
import Lindenmayer.Proofs.SixPlaces
import Lindenmayer.Proofs.PenRuns
import Lindenmayer.Proofs.InStep
import Lindenmayer.Proofs.Precedence
import Lindenmayer.Proofs.Mirror
import Lindenmayer.Proofs.Lines
import Lindenmayer.Proofs.Headings
