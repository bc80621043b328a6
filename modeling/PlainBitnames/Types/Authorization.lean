import PlainBitnames.Types.Body

/-!
Authorizations of the inputs of a body. Every input needs one authorization:
the messages are repeated once for each input, paired with the authorizations
in order, and verified in chunks.
-/

namespace PlainBitnames

open Borsh Fallible

variable [Primitives]

inductive AuthorizationError where
  | borshSerialize
  | notEnoughAuthorizations
  | signatureVerification
  | tooManyAuthorizations
deriving DecidableEq

/-- Domain separation tag for signing messages. -/
inductive Dst where
  | transaction
  | arbitrary
deriving DecidableEq

def Dst.toByte : Dst → UInt8
  | .transaction => 0
  | .arbitrary => 255

def getAddress (verifyingKey : VerifyingKey) : Address :=
  Primitives.blake3Xof (ser verifyingKey)

def Authorization.getAddress (authorization : Authorization) : Address :=
  PlainBitnames.getAddress authorization.verifyingKey

/-- Canonical message to sign a transaction. -/
def txMsgCanonical (tx : Transaction) : List UInt8 := Dst.transaction.toByte :: ser tx

/-- Verify a message with a domain separation tag. -/
def verify (signature : Signature) (verifyingKey : VerifyingKey) (dst : Dst)
    (msg : List UInt8) : Bool :=
  Primitives.verifySignature verifyingKey signature (dst.toByte :: msg)

/-- Consecutive chunks of at most `n` elements. -/
def chunks {α : Type} (n : Nat) (l : List α) : List (List α) :=
  (List.range ((l.length + n - 1) / n)).map fun k => (l.drop (k * n)).take n

def chunkSize : Nat := 2 ^ 14

/-- Every authorization of a body with the message it must sign. -/
def authorizationPairs (body : Body) : List (Authorization × List UInt8) :=
  body.authorizations.zip
    (body.transactions.flatMap fun tx => List.replicate tx.inputs.length (txMsgCanonical tx))

/-- Queue the items of a chunk and verify them together. -/
def verifyChunk (ctxt : BatchVerificationContext) (chunk : List (Authorization × List UInt8)) :
    Bool :=
  Primitives.verifyBatch ctxt
    (chunk.map fun pair => (pair.1.verifyingKey, pair.1.signature, pair.2))

/-- One authorization for each input, all of which sign the transaction. A batch must
not be empty. -/
def verifyAuthorizedTransaction (ctxt : BatchVerificationContext)
    (transaction : AuthorizedTransaction) : Except (Failure AuthorizationError) Unit := do
  let verificationsRequired := transaction.transaction.inputs.length
  ensure (verificationsRequired ≤ transaction.authorizations.length)
    (.error .notEnoughAuthorizations)
  ensure (transaction.authorizations.length ≤ verificationsRequired) (.error .tooManyAuthorizations)
  if transaction.authorizations.isEmpty then .ok ()
  else do
    ensure (fits transaction.transaction) (.error .borshSerialize)
    ensure (verifyChunk ctxt (transaction.authorizations.map
        fun authorization => (authorization, txMsgCanonical transaction.transaction)))
      (.error .signatureVerification)

def verifyAuthorizations (ctxt : BatchVerificationContext) (body : Body) :
    Except (Failure AuthorizationError) Unit := do
  let verificationsRequired := (body.transactions.map fun tx => tx.inputs.length).sum
  ensure (verificationsRequired ≤ body.authorizations.length) (.error .notEnoughAuthorizations)
  ensure (body.authorizations.length ≤ verificationsRequired) (.error .tooManyAuthorizations)
  ensure (body.transactions.all fits) (.error .borshSerialize)
  let pairs := authorizationPairs body
  ensure (pairs.length = body.authorizations.length)
    (.panic "assert_eq!(pairs.len(), body.authorizations.len())")
  ensure ((chunks chunkSize pairs).all (verifyChunk ctxt)) (.error .signatureVerification)

end PlainBitnames
