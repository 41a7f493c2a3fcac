import TropicalAlgebra.AlgebraName.Parse
import TropicalAlgebra.Decimal.Positional
import TropicalAlgebra.DefaultAlgebra
import TropicalAlgebra.Fitting.Fit
import TropicalAlgebra.Matrix.Text
import TropicalAlgebra.Proofs.Closure.Agreement
import TropicalAlgebra.Proofs.Closure.CycleMean
import TropicalAlgebra.Proofs.Closure.FixedPoint
import TropicalAlgebra.Proofs.Fitting.Chebyshev
import TropicalAlgebra.Proofs.TwoSided.Agreement
import TropicalAlgebra.Scalar.ExtendedRational
import TropicalAlgebra.Proofs.TwoSided.Events
import TropicalAlgebra.Proofs.TwoSided.Recurrence
import TropicalAlgebra.Proofs.Closure.Iterator
import TropicalAlgebra.Proofs.Fitting.Quotient
import TropicalAlgebra.Proofs.Closure.Truncation
import TropicalAlgebra.Proofs.Duality
import TropicalAlgebra.Proofs.Fitting.Evaluation
import TropicalAlgebra.Proofs.Fitting.SampleSet
import TropicalAlgebra.Proofs.Matrix.Semiring
import TropicalAlgebra.Proofs.Closure.Normalization
import TropicalAlgebra.Proofs.TwoSided.Safety
import TropicalAlgebra.Proofs.TwoSided.Lockstep
import TropicalAlgebra.Proofs.TwoSided.Scaling
import TropicalAlgebra.Proofs.Fitting.Overflow
import TropicalAlgebra.Proofs.Closure.Detection
import TropicalAlgebra.Proofs.TwoSided.Optimality
import TropicalAlgebra.Proofs.Matrix.Extension
import TropicalAlgebra.Proofs.Closure.Transposition
import TropicalAlgebra.Proofs.Dioid.Annihilating
import TropicalAlgebra.Proofs.Matrix.Textbook
import TropicalAlgebra.Proofs.Closure.Monotonicity
import TropicalAlgebra.Proofs.AlgebraName.Spelling
import TropicalAlgebra.Proofs.Matrix.Subsolution
import TropicalAlgebra.Proofs.Matrix.PseudoInverse
import TropicalAlgebra.Proofs.Storage.Runs
