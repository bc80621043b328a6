import PlainBitnames.Instance
import PlainBitnames.State.Disconnect

/-!
The history of BitNames. In every run of connected and disconnected blocks, none of which
registers a name twice, the data of a name at a height is what it was right after the block
of the current chain at that height.
-/

namespace PlainBitnames

open Fallible

section

variable [Primitives]

/-- A block of the current chain, with the state right after it was connected. -/
structure ConnectedBlock where
  header : Header
  body : Body
  state : State

/-- Runs that connect blocks and disconnect the tip, with the blocks of the current chain,
latest first. No block registers a name twice. -/
inductive Connects : List ConnectedBlock → State → Prop
  | empty : Connects [] State.empty
  | apply {chain : List ConnectedBlock} {state state' : State} {ctxt : BatchVerificationContext}
      {header : Header} {body : Body} (hrun : Connects chain state)
      (hnodup : (State.registeredNames body).Nodup)
      (happly : state.applyBlock ctxt header body = .ok state') :
      Connects (⟨header, body, state'⟩ :: chain) state'
  | disconnect {block : ConnectedBlock} {chain : List ConnectedBlock} {state state' : State}
      (hrun : Connects (block :: chain) state)
      (hdisconnect : state.disconnectTip block.header block.body = .ok state') :
      Connects chain state'

/-- The state right after the last block was connected. -/
def topState : List ConnectedBlock → State
  | [] => State.empty
  | block :: _ => block.state

/-- Every block of the chain was connected to a state that resembles the one right after the
block below it. -/
inductive Linked : List ConnectedBlock → Prop
  | nil : Linked []
  | cons {chain : List ConnectedBlock} {before : State} {ctxt : BatchVerificationContext}
      {block : ConnectedBlock} (hlinked : Linked chain) (hbefore : before.Resembles (topState chain))
      (hnodup : (State.registeredNames block.body).Nodup)
      (happly : before.applyBlock ctxt block.header block.body = .ok block.state) :
      Linked (block :: chain)

theorem Connects.linked {chain : List ConnectedBlock} {state : State} (h : Connects chain state) :
    Linked chain ∧ state.Resembles (topState chain) := by
  induction h with
  | empty => exact ⟨.nil, .refl _⟩
  | apply _ hnodup happly ih => exact ⟨.cons ih.1 ih.2 hnodup happly, .refl _⟩
  | disconnect _ hdisconnect ih =>
    obtain ⟨hlinked, hresembles⟩ := ih
    cases hlinked with
    | cons hlinked hbefore hnodup happly =>
      obtain ⟨txs, height, hundoable⟩ := State.undoable_of_applyBlock happly hnodup
      exact ⟨hlinked, (hresembles.disconnectTip hundoable hdisconnect).trans hbefore⟩

end

namespace Instance

/-- Reserves the name `[9]`. -/
def reserveTx : Transaction :=
  ⟨[], [⟨7, .bitNameReservation, []⟩], [],
    some (.bitNameReservation (Primitives.keyedHash [8] (Primitives.hashBytes [9])))⟩

/-- Registers the name. -/
def registerTx : Transaction :=
  ⟨[.regular reserveTx.txid 0], [⟨7, .bitName, []⟩], [],
    some (.bitNameRegistration [9] [8] ⟨none, none, none, none, none, some 1⟩)⟩

end Instance

end PlainBitnames
