import Ci.Main
import Ci.Interval.Storage
import Ci.Proofs.Codec.RoundTrip
import Ci.Proofs.Coverage.Run
import Ci.Proofs.Descent.Jumps
import Ci.Proofs.Descent.Places
import Ci.Proofs.Frame.Context
import Ci.Proofs.Frame.Shape
import Ci.Proofs.Hierarchy.Circles
import Ci.Proofs.Hierarchy.Linearization
import Ci.Proofs.Idempotence.Run
import Ci.Proofs.Interval.Monotonicity
import Ci.Proofs.Meaning.Preservation
import Ci.Proofs.Safety.Run
import Ci.Proofs.Safety.Termination
import Ci.Proofs.Scoping.Lexical
import Ci.Proofs.Scoping.Members
import Ci.Proofs.Typing.Comparisons
import Ci.Proofs.Typing.Grammar
import Ci.Proofs.Typing.Ranges
import Ci.Proofs.Typing.Unification
import Ci.Proofs.Typing.Values
