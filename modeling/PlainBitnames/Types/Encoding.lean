import PlainBitnames.Types.Body

/-!
What the canonical encodings of transactions, outputs and headers determine.
Two transactions are alike when they agree in everything but the network of a
withdrawal address and the flow information and scope of an IPv6 socket
address; alike transactions are exactly those with one encoding, and so with
one txid if the hash is free of collisions.
-/

namespace PlainBitnames

open Borsh

variable [Primitives]

/-- The same script. -/
def WithdrawalContent.Alike (w x : WithdrawalContent) : Prop :=
  w.value = x.value ∧ w.mainFee = x.mainFee ∧
    Primitives.scriptPubkey w.mainAddress = Primitives.scriptPubkey x.mainAddress

def Content.Alike : Content → Content → Prop
  | .bitcoin v, .bitcoin w => v = w
  | .bitName, .bitName => True
  | .bitNameReservation, .bitNameReservation => True
  | .withdrawal w, .withdrawal x => w.Alike x
  | _, _ => False

def Output.Alike (o p : Output) : Prop :=
  o.address = p.address ∧ o.content.Alike p.content ∧ o.memo = p.memo

/-- The same IP and port. -/
def SocketAddrV6.Alike (a b : SocketAddrV6) : Prop := a.ip = b.ip ∧ a.port = b.port

def MutableBitNameData.Alike (d e : MutableBitNameData) : Prop :=
  d.commitment = e.commitment ∧ d.socketAddrV4 = e.socketAddrV4 ∧
    Option.Rel SocketAddrV6.Alike d.socketAddrV6 e.socketAddrV6 ∧
    d.encryptionPubkey = e.encryptionPubkey ∧ d.signingPubkey = e.signingPubkey ∧
    d.paymailFeeSats = e.paymailFeeSats

def Update.Rel {α : Type} (R : α → α → Prop) : Update α → Update α → Prop
  | .delete, .delete => True
  | .retain, .retain => True
  | .set a, .set b => R a b
  | _, _ => False

def BitNameDataUpdates.Alike (d e : BitNameDataUpdates) : Prop :=
  Update.Rel Eq d.commitment e.commitment ∧ Update.Rel Eq d.socketAddrV4 e.socketAddrV4 ∧
    Update.Rel SocketAddrV6.Alike d.socketAddrV6 e.socketAddrV6 ∧
    Update.Rel Eq d.encryptionPubkey e.encryptionPubkey ∧
    Update.Rel Eq d.signingPubkey e.signingPubkey ∧
    Update.Rel Eq d.paymailFeeSats e.paymailFeeSats

def TransactionData.Alike : TransactionData → TransactionData → Prop
  | .bitNameReservation c, .bitNameReservation c' => c = c'
  | .bitNameRegistration n r d, .bitNameRegistration n' r' d' =>
    n = n' ∧ r = r' ∧ d.Alike d'
  | .bitNameUpdate u, .bitNameUpdate u' => u.Alike u'
  | .batchIcann d, .batchIcann d' => d = d'
  | _, _ => False

/-- Transactions that differ at most in what the encoding leaves out. -/
def Transaction.Alike (t u : Transaction) : Prop :=
  t.inputs = u.inputs ∧ List.Forall₂ Output.Alike t.outputs u.outputs ∧ t.memo = u.memo ∧
    Option.Rel TransactionData.Alike t.data u.data

omit [Primitives] in
theorem reads_bitcoinOutPoint : Reads BitcoinOutPoint Eq :=
  ((reads_bitVec 256).pair reads_uint32).fields (fun o : BitcoinOutPoint => (o.txid, o.vout)) (fun _ => rfl)
    (fun _ _ => rfl) |>.mono fun a b h => by
      cases a
      cases b
      simp_all

theorem reads_outPoint : Reads OutPoint Eq := by
  intro a b r s ha hb h
  cases a <;> cases b <;> obtain ⟨htag, hbody⟩ := List.cons.inj h <;>
    try exact absurd htag (by decide)
  case regular.regular txid vout txid' vout' =>
    obtain ⟨⟨htxid, hvout⟩, hrest⟩ :=
      reads_hash.pair reads_uint32 (a := (txid, vout)) (b := (txid', vout')) rfl rfl hbody
    exact ⟨congrArg₂ _ htxid hvout, hrest⟩
  case coinbase.coinbase txid vout txid' vout' =>
    obtain ⟨⟨htxid, hvout⟩, hrest⟩ :=
      reads_hash.pair reads_uint32 (a := (txid, vout)) (b := (txid', vout')) rfl rfl hbody
    exact ⟨congrArg₂ _ htxid hvout, hrest⟩
  case deposit.deposit outpoint outpoint' =>
    obtain ⟨houtpoint, hrest⟩ := reads_bitcoinOutPoint rfl rfl hbody
    exact ⟨congrArg _ houtpoint, hrest⟩

theorem reads_withdrawalContent : Reads WithdrawalContent WithdrawalContent.Alike :=
  (reads_uint64.pair (reads_uint64.pair reads_uint8.list_eq)).fields
    (fun w : WithdrawalContent => (w.value, w.mainFee, Primitives.scriptPubkey w.mainAddress)) (fun _ => rfl)
    (fun _ h => h)

theorem reads_content : Reads Content Content.Alike := by
  intro a b r s ha hb h
  cases a <;> cases b <;> obtain ⟨htag, hbody⟩ := List.cons.inj h <;>
    try exact absurd htag (by decide)
  case bitcoin.bitcoin => exact reads_uint64 rfl rfl hbody
  case bitName.bitName => exact ⟨trivial, hbody⟩
  case bitNameReservation.bitNameReservation => exact ⟨trivial, hbody⟩
  case withdrawal.withdrawal => exact reads_withdrawalContent ha hb hbody

theorem reads_output : Reads Output Output.Alike :=
  ((reads_bitVec 160).pair (reads_content.pair reads_uint8.list_eq)).fields
    (fun o : Output => (o.address, o.content, o.memo)) (fun _ => rfl) (fun _ h => h)

omit [Primitives] in
theorem reads_socketAddrV4 : Reads SocketAddrV4 Eq :=
  ((reads_bitVec 32).pair reads_uint16).fields (fun a : SocketAddrV4 => (a.ip, a.port)) (fun _ => rfl)
    (fun _ _ => rfl) |>.mono fun a b h => by
      cases a
      cases b
      simp_all

omit [Primitives] in
theorem reads_socketAddrV6 : Reads SocketAddrV6 SocketAddrV6.Alike :=
  ((reads_bitVec 128).pair reads_uint16).fields (fun a : SocketAddrV6 => (a.ip, a.port)) (fun _ => rfl)
    (fun _ _ => rfl)

theorem reads_mutableBitNameData : Reads MutableBitNameData MutableBitNameData.Alike :=
  (reads_hash.option_eq.pair (reads_socketAddrV4.option_eq.pair
    (reads_socketAddrV6.option.pair ((reads_bitVec 256).option_eq.pair
      ((reads_bitVec 256).option_eq.pair reads_uint64.option_eq))))).fields
    (fun d : MutableBitNameData => (d.commitment, d.socketAddrV4, d.socketAddrV6, d.encryptionPubkey,
      d.signingPubkey, d.paymailFeeSats)) (fun _ => rfl) (fun d _ => by
        cases d with
        | mk c v4 v6 e s p =>
          cases c <;> cases v4 <;> cases v6 <;> cases e <;> cases s <;> cases p <;> rfl)

omit [Primitives] in
theorem reads_update {α : Type} [Borsh α] {R : α → α → Prop} (hreads : Reads α R) :
    Reads (Update α) (Update.Rel R) := by
  intro a b r s ha hb h
  cases a <;> cases b <;> obtain ⟨htag, hbody⟩ := List.cons.inj h <;>
    try exact absurd htag (by decide)
  case delete.delete => exact ⟨trivial, hbody⟩
  case retain.retain => exact ⟨trivial, hbody⟩
  case set.set => exact hreads ha hb hbody

theorem reads_bitNameDataUpdates : Reads BitNameDataUpdates BitNameDataUpdates.Alike :=
  ((reads_update reads_hash).pair ((reads_update reads_socketAddrV4).pair
    ((reads_update reads_socketAddrV6).pair ((reads_update (reads_bitVec 256)).pair
      ((reads_update (reads_bitVec 256)).pair (reads_update reads_uint64)))))).fields
    (fun d : BitNameDataUpdates => (d.commitment, d.socketAddrV4, d.socketAddrV6, d.encryptionPubkey,
      d.signingPubkey, d.paymailFeeSats)) (fun _ => rfl) (fun d _ => by
        cases d with
        | mk c v4 v6 e s p =>
          cases c <;> cases v4 <;> cases v6 <;> cases e <;> cases s <;> cases p <;> rfl)

omit [Primitives] in
theorem reads_batchIcannRegistrationData : Reads BatchIcannRegistrationData Eq :=
  (reads_string.list_eq.pair (reads_bitVec 512)).fields (fun d : BatchIcannRegistrationData => (d.plainNames, d.signature))
    (fun _ => rfl) (fun _ h => by simpa [fits] using h) |>.mono fun a b h => by
      cases a
      cases b
      simp_all

theorem reads_transactionData : Reads TransactionData TransactionData.Alike := by
  intro a b r s ha hb h
  cases a <;> cases b <;> obtain ⟨htag, hbody⟩ := List.cons.inj h <;>
    try exact absurd htag (by decide)
  case bitNameReservation.bitNameReservation => exact reads_hash rfl rfl hbody
  case bitNameRegistration.bitNameRegistration name nonce data name' nonce' data' =>
    exact reads_hash.pair (reads_hash.pair reads_mutableBitNameData)
      (a := (name, nonce, data)) (b := (name', nonce', data')) rfl rfl hbody
  case bitNameUpdate.bitNameUpdate => exact reads_bitNameDataUpdates rfl rfl hbody
  case batchIcann.batchIcann => exact reads_batchIcannRegistrationData ha hb hbody

theorem reads_transaction : Reads Transaction Transaction.Alike :=
  (reads_outPoint.list_eq.pair (reads_output.list.pair
    (reads_uint8.list_eq.pair reads_transactionData.option))).fields
    (fun t : Transaction => (t.inputs, t.outputs, t.memo, t.data)) (fun _ => rfl)
    (fun _ h => by simpa [fits, Bool.and_assoc] using h)

theorem reads_header : Reads Header Eq :=
  (reads_hash.pair (reads_hash.option_eq.pair (reads_bitVec 256))).fields
    (fun h : Header => (h.merkleRoot, h.prevSideHash, h.prevMainHash)) (fun _ => rfl)
    (fun h _ => by
      cases h with
      | mk root prev main => cases prev <;> rfl) |>.mono fun a b h => by
        cases a
        cases b
        simp_all

theorem Header.hash_injective (hcf : CollisionFree) :
    Function.Injective (Header.hash : Header → BlockHash) :=
  fun _ _ h => reads_header.of_ser_eq rfl rfl (ser_eq_of_hash_eq hcf h)

theorem Header.computeCoinbaseTxid_injective (hcf : CollisionFree) :
    Function.Injective Header.computeCoinbaseTxid := by
  intro a b h
  have hreads := reads_hash.pair ((reads_bitVec 256).pair reads_hash.option_eq)
  have hfits : ∀ h : Header, fits (h.merkleRoot, h.prevMainHash, h.prevSideHash) = true := by
    intro h
    cases h with
    | mk root prev main => cases prev <;> rfl
  obtain ⟨hroot, hmain, hside⟩ :=
    hreads.of_ser_eq (hfits a) (hfits b) (ser_eq_of_hash_eq hcf h)
  cases a
  cases b
  simp_all

theorem alike_of_txid_eq (hcf : CollisionFree) {t u : Transaction} (ht : fits t = true)
    (hu : fits u = true) (h : t.txid = u.txid) : t.Alike u :=
  reads_transaction.of_ser_eq ht hu (ser_eq_of_hash_eq hcf h)

end PlainBitnames
