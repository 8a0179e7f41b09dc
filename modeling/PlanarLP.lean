import PlanarLP.Main
import PlanarLP.Session
import PlanarLP.Proofs.Clipping
import PlanarLP.Proofs.ConflictVerdicts
import PlanarLP.Proofs.ConstantComparisons
import PlanarLP.Proofs.Equivalence
import PlanarLP.Proofs.ErrorSpans
import PlanarLP.Proofs.Lowering
import PlanarLP.Proofs.Negation
import PlanarLP.Proofs.NumeralValues
import PlanarLP.Proofs.ObjectiveReading
import PlanarLP.Proofs.Offset
import PlanarLP.Proofs.OptimalSet
import PlanarLP.Proofs.PositiveSpan
import PlanarLP.Proofs.Quadrant
import PlanarLP.Proofs.Reparse
import PlanarLP.Proofs.Repeating
import PlanarLP.Proofs.RequestErrors
import PlanarLP.Proofs.Senses
import PlanarLP.Proofs.SwappedSides
import PlanarLP.Proofs.TermSpans
import PlanarLP.Proofs.TightSets
import PlanarLP.Proofs.Tiling
import PlanarLP.Proofs.TripleVerdicts
import PlanarLP.Proofs.WellFormed
