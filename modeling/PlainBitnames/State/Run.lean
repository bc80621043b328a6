import PlainBitnames.State.TwoWayPegData

/-!
Runs of the sidechain. A step applies a block or connects two-way peg data; a
run is a list of steps that all succeed. The node applies a block and then
connects the two-way peg data of the mainchain blocks since the last one: such
a run consists of rounds.
-/

namespace PlainBitnames

open Fallible

variable [Primitives]

inductive Step where
  | block (ctxt : BatchVerificationContext) (header : Header) (body : Body)
  | peg (data : TwoWayPegData)

namespace State

def step (state : State) : Step → Result State
  | .block ctxt header body => state.applyBlock ctxt header body
  | .peg data => state.connectTwoWayPegData data

def run (state : State) (steps : List Step) : Result State := steps.foldlM step state

end State

/-- A block and the two-way peg data connected after it. -/
structure Round where
  ctxt : BatchVerificationContext
  header : Header
  body : Body
  data : TwoWayPegData

def Round.steps (round : Round) : List Step :=
  [.block round.ctxt round.header round.body, .peg round.data]

/-- The steps of a run in which every block is followed by its two-way peg
data. -/
def roundSteps (rounds : List Round) : List Step := rounds.flatMap Round.steps

/-- The blocks of a run. -/
def blocksOf (steps : List Step) : List (Header × Body) :=
  steps.filterMap fun
    | .block _ header body => some (header, body)
    | .peg _ => none

def BlockEvent.deposit? : BlockEvent → Option Deposit
  | .deposit d => some d
  | .withdrawalBundle _ => none

/-- The deposits of a run. -/
def depositsOf (steps : List Step) : List Deposit :=
  steps.flatMap fun
    | .block _ _ _ => []
    | .peg data => data.events.filterMap fun event => event.2.deposit?

/-- Deposit outpoints never repeat. -/
def DepositsDistinct (steps : List Step) : Prop :=
  ((depositsOf steps).map Deposit.outpoint).Nodup

end PlainBitnames
