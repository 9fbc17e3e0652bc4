import TwoCnf.Main
import TwoCnf.Proofs.Command.Solving
import TwoCnf.Proofs.Component.Flattening
import TwoCnf.Proofs.Formula.Bookkeeping
import TwoCnf.Proofs.Listing.Localization
import TwoCnf.Proofs.Listing.RoundTrip
import TwoCnf.Proofs.Solver.Renaming
import TwoCnf.Proofs.Solver.Session
import TwoCnf.Proofs.Solver.Unordered
import TwoCnf.Proofs.Formula.Growth
import TwoCnf.Proofs.Solver.Growth
import TwoCnf.Proofs.Listing.Encoding
import TwoCnf.Proofs.Random.Drawing
import TwoCnf.Proofs.Random.Pipeline
import TwoCnf.Proofs.Solver.Walk
import TwoCnf.Proofs.Implication.Exactness
import TwoCnf.Proofs.Solver.Mirror
import TwoCnf.Proofs.Solver.Conflict
import TwoCnf.Proofs.Solver.Closure
import TwoCnf.Proofs.Solver.Refusal
import TwoCnf.Proofs.Random.Planting
import TwoCnf.Proofs.Component.Course
import TwoCnf.Proofs.Solver.Density
import TwoCnf.Proofs.Component.Capacity
import TwoCnf.Proofs.Implication.Snapshot
import TwoCnf.Proofs.Component.Faultless
import TwoCnf.Proofs.Component.Discipline
