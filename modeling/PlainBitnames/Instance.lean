import PlainBitnames.State.Run

/-!
An instance of the primitives in which everything the theorems assume of them
holds: a digest is a byte string, hashing keeps the whole input, and encodings
of digests are delimited by their length. It shows that the hypotheses can be
met together, and concrete states are evaluated in it.
-/

namespace PlainBitnames.Instance

open Borsh

/-- The digits of a number in base 255, least significant first, closed by
255. -/
def digits : Nat → Nat → List UInt8
  | 0, _ => [255]
  | fuel + 1, n =>
    if n = 0 then [255] else UInt8.ofNat (n % 255) :: digits fuel (n / 255)

def natBytes (n : Nat) : List UInt8 := digits n n

theorem digit_ne (n : Nat) : UInt8.ofNat (n % 255) ≠ 255 := by
  intro h
  have hval := congrArg UInt8.toNat h
  have hlt := Nat.mod_lt n (show 255 > 0 by decide)
  rw [UInt8.toNat_ofNat'] at hval
  have h255 : (255 : UInt8).toNat = 255 := rfl
  omega

theorem digits_zero (k : Nat) : digits k 0 = [255] := by
  cases k with
  | zero => rfl
  | succ k => rw [digits, if_pos rfl]

theorem digits_pos {k n : Nat} (hk : n ≤ k) (hn : n ≠ 0) :
    digits k n = UInt8.ofNat (n % 255) :: digits (k - 1) (n / 255) := by
  cases k with
  | zero => omega
  | succ k => rw [digits, if_neg hn, Nat.add_sub_cancel]

theorem digits_append {j k n m : Nat} {r s : List UInt8} (hn : n ≤ j) (hm : m ≤ k)
    (h : digits j n ++ r = digits k m ++ s) : n = m ∧ r = s := by
  induction n using Nat.strong_induction_on generalizing j k m with
  | h n ih =>
    by_cases hzero : n = 0
    · subst hzero
      rw [digits_zero] at h
      by_cases hzero' : m = 0
      · subst hzero'
        rw [digits_zero] at h
        exact ⟨rfl, List.append_cancel_left h⟩
      · rw [digits_pos hm hzero'] at h
        exact absurd (List.cons.inj h).1.symm (digit_ne m)
    · rw [digits_pos hn hzero] at h
      by_cases hzero' : m = 0
      · subst hzero'
        rw [digits_zero] at h
        exact absurd (List.cons.inj h).1 (digit_ne n)
      · rw [digits_pos hm hzero'] at h
        obtain ⟨hdigit, hrest⟩ := List.cons.inj h
        obtain ⟨hquot, hrs⟩ := ih (n / 255) (by omega) (by omega) (by omega) hrest
        have hlow := congrArg UInt8.toNat hdigit
        rw [UInt8.toNat_ofNat', UInt8.toNat_ofNat'] at hlow
        exact ⟨by omega, hrs⟩

theorem natBytes_append {n m : Nat} {r s : List UInt8}
    (h : natBytes n ++ r = natBytes m ++ s) : n = m ∧ r = s :=
  digits_append (Nat.le_refl n) (Nat.le_refl m) h

/-- The first bytes of every digest. Read as the fee and the size of a
transaction they give a size of one byte, which no transaction has. -/
def marker : List UInt8 := [0, 0, 0, 0, 0, 0, 0, 0, 1, 0, 0, 0, 0, 0, 0, 0]

/-- A byte string with its length in front. -/
def delimited (l : List UInt8) : List UInt8 := marker ++ (natBytes l.length ++ l)

theorem delimited_append ⦃a b r s : List UInt8⦄
    (h : delimited a ++ r = delimited b ++ s) : a = b ∧ r = s := by
  unfold delimited at h
  rw [List.append_assoc, List.append_assoc, List.append_assoc, List.append_assoc] at h
  obtain ⟨hlength, hrest⟩ := natBytes_append (List.append_cancel_left h)
  exact List.append_inj hrest hlength

def txOutBytes (o : TxOut) : List UInt8 := 1 :: (ser o.value ++ delimited o.scriptPubkey)

def txBytes (tx : BitcoinTransaction) : List UInt8 :=
  natBytes tx.version ++ (natBytes tx.lockTime ++ tx.output.flatMap txOutBytes)

/-- Digests of BLAKE3 start with 1 and ids of mainchain transactions with 2.
The address of a key is its low byte, and a signature is valid if it carries
the key. -/
instance primitives : Primitives where
  Hash := List UInt8
  hashDecEq := inferInstance
  hashBytes := delimited
  hashBytes_append := delimited_append
  zeroHash := []
  blake3 bytes := 1 :: bytes
  keyedHash key bytes := key ++ bytes
  blake3Xof bytes := BitVec.ofNat 160 (bytes.headD 0).toNat
  MainAddress := Nat
  mainAddressOrder := inferInstance
  scriptPubkey address := [UInt8.ofNat address]
  computeTxid tx := 2 :: txBytes tx
  weight _ := 0
  verifyingKeyTryFrom _ := none
  verifySignature key signature _ := signature.toNat = key.toNat
  verifyBatch _ items := items.all fun item => item.2.1.toNat = item.1.toNat
  parseDomainName _ := true

theorem collisionFree : CollisionFree := by
  intro a b h
  exact (List.cons.inj h).2

/-- The header of a body on top of a state, with the merkle root the body has
there. -/
def mine (state : State) (body : Body) : Header :=
  let root : Result MerkleRoot := do
    let filled ← body.transactions.mapM state.fillTransaction
    Fallible.mapFailure .computeMerkleRoot (Body.computeMerkleRoot body.coinbase filled)
  ⟨root.toOption.getD zeroHash, state.tip, 0⟩

theorem exists_of_isOk {ε α : Type} {x : Except ε α} (h : x.isOk = true) : ∃ a, x = .ok a := by
  cases x with
  | error e => cases h
  | ok a => exact ⟨a, rfl⟩

theorem eq_ok_getD {ε α : Type} {x : Except ε α} (d : α) (h : x.isOk = true) :
    x = .ok (x.toOption.getD d) := by
  cases x with
  | error e => cases h
  | ok a => rfl

/-- The steps that apply some bodies, each under the header it has on top of the
state reached so far, and connect some two-way peg data. -/
def script : State → List (Body ⊕ TwoWayPegData) → List Step
  | _, [] => []
  | state, .inl body :: rest =>
    let step := Step.block 0 (mine state body) body
    step :: script ((state.step step).toOption.getD state) rest
  | state, .inr data :: rest =>
    .peg data :: script ((state.step (.peg data)).toOption.getD state) rest

def stepsOf (acts : List (Body ⊕ TwoWayPegData)) : List Step := script State.empty acts

/-- The state a script reaches. -/
def after (acts : List (Body ⊕ TwoWayPegData)) : State :=
  (State.empty.run (stepsOf acts)).toOption.getD State.empty

/-- A transaction without inputs that creates an output of value zero for key
7. -/
def mint : Transaction := ⟨[], [⟨7, .bitcoin 0, []⟩], [], none⟩

/-- A transaction that spends the output of `mint`. -/
def spendMint : Transaction := ⟨[.regular mint.txid 0], [], [], none⟩

def mintBody : Body := ⟨⟨[], []⟩, [mint], []⟩

/-- The state after a block with `mint`. -/
def minted : State := after [.inl mintBody]

/-- A block that spends the output of `mint` and creates nothing again. -/
def spendBody : Body := ⟨⟨[], []⟩, [spendMint], [⟨7, 7⟩]⟩

theorem run_minted : State.empty.run (stepsOf [.inl mintBody]) = .ok minted :=
  eq_ok_getD State.empty (by decide +kernel)

end PlainBitnames.Instance
