import PlainBitnames.Archive.Lookups
import PlainBitnames.Properties.TipArrival
import PlainBitnames.Properties.TxIndex

/-!
Deleting a body undoes storing it. Storing a body connects a whole subtree of waiting
descendants as tips, and deleting it visits the tips of the subtree: before, the subtree has
no tip, since its first block has no body, and so it has none afterwards.
-/

namespace PlainBitnames

open Fallible Lineage Relation

section

variable [Primitives]

namespace Inclusions

/-- Every transaction of an index is included in some block. -/
def Occupied (index : Inclusions) : Prop :=
  ∀ ⦃txid : Txid⦄ ⦃inclusions : Db BlockHash UInt32⦄, index[txid]? = some inclusions →
    inclusions ≠ ∅

/-- A transaction is included only in blocks whose bodies have it. -/
def Backed (index : Inclusions) (bodies : Db BlockHash Body) : Prop :=
  ∀ ⦃txid : Txid⦄ ⦃b : BlockHash⦄, b ∈ index.ofTx txid →
    ∃ body, bodies[b]? = some body ∧ txid ∈ body.transactions.map Transaction.txid

variable {index index' : Inclusions} {bodies : Db BlockHash Body} {b : BlockHash} {body : Body}

theorem Occupied.insert (h : index.Occupied) {txid : Txid} {inclusions : Db BlockHash UInt32}
    (hne : inclusions ≠ ∅) : Occupied (Std.ExtTreeMap.insert index txid inclusions) := by
  intro txid' inclusions' hget
  rcases Db.get_insert_cases hget with ⟨-, rfl⟩ | ⟨-, hget⟩
  · exact hne
  · exact h hget

theorem Occupied.insertBody (h : index.Occupied) (b : BlockHash) (body : Body) :
    (index.insertBody b body).Occupied := by
  refine List.foldlRecOn _ _ h fun index h entry _ => h.insert fun hempty => ?_
  have hmem : b ∈ (index.ofTx entry.1.txid).insert b (UInt32.ofNat entry.2) :=
    (Db.mem_insert _ _ _ _).mpr (.inl rfl)
  rw [hempty] at hmem
  exact Db.not_mem_empty b hmem

theorem Occupied.removeBody (h : index.Occupied) (b : BlockHash) (body : Body) :
    (index.removeBody b body).Occupied := by
  refine List.foldlRecOn _ _ h fun index h tx _ => ?_
  unfold removeTx write
  split
  · intro txid inclusions hget
    rw [Db.get_erase] at hget
    split at hget
    · cases hget
    · exact h hget
  next hnot => exact h.insert fun hempty => hnot (Std.ExtTreeMap.isEmpty_iff.mpr hempty)

theorem Occupied.ext (h : index.Occupied) (h' : index'.Occupied)
    (hsame : ∀ txid, index.ofTx txid = index'.ofTx txid) : index = index' := by
  refine Db.ext fun txid => ?_
  have hsame := hsame txid
  unfold ofTx at hsame
  cases hget : index[txid]? with
  | none =>
    cases hget' : index'[txid]? with
    | none => rfl
    | some inclusions =>
      rw [hget, hget'] at hsame
      exact absurd hsame.symm (h' hget')
  | some inclusions =>
    cases hget' : index'[txid]? with
    | none =>
      rw [hget, hget'] at hsame
      exact absurd hsame (h hget)
    | some inclusions' =>
      rw [hget, hget'] at hsame
      exact congrArg some hsame

theorem Backed.insertBody (h : index.Backed bodies)
    (honce : ∀ old, bodies[b]? = some old → old = body) :
    (index.insertBody b body).Backed (bodies.insert b body) := by
  intro txid c hmem
  obtain ⟨i, hget⟩ := (Db.mem_iff _ _).mp hmem
  by_cases hbc : b = c
  · subst hbc
    refine ⟨body, Db.get_insert_self _ _ _, ?_⟩
    rcases get_insertTxs index b txid body.transactions 0 with
      ⟨n, tx, htx, rfl, -⟩ | ⟨-, hentry⟩
    · exact List.mem_map_of_mem (List.mem_of_getElem? htx)
    · obtain ⟨old, hold, hmem⟩ := h (Db.mem_of_get (hentry.symm.trans hget))
      rwa [← honce old hold]
  · rw [get_insertBody_of_ne body hbc] at hget
    rw [Db.get_insert_ne _ _ hbc]
    exact h (Db.mem_of_get hget)

theorem Backed.removeBody (h : index.Backed bodies) (hbody : bodies[b]? = some body) :
    (index.removeBody b body).Backed (bodies.erase b) := by
  intro txid c hmem
  obtain ⟨i, hget⟩ := (Db.mem_iff _ _).mp hmem
  rw [get_removeBody] at hget
  split at hget
  · cases hget
  next hnot =>
    obtain ⟨body', hbody', hmem⟩ := h (Db.mem_of_get hget)
    have hne : b ≠ c := by
      rintro rfl
      cases hbody.symm.trans hbody'
      exact hnot ⟨hmem, rfl⟩
    exact ⟨body', (Db.get_erase_ne _ hne).trans hbody', hmem⟩

/-- A body that is recorded and removed leaves the index as it was, if none was recorded for
the block. -/
theorem removeBody_insertBody (hoccupied : index.Occupied) (hbacked : index.Backed bodies)
    (hfresh : b ∉ bodies) (body : Body) :
    (index.insertBody b body).removeBody b body = index := by
  refine ((hoccupied.insertBody b body).removeBody b body).ext hoccupied fun txid => Db.ext fun c => ?_
  rw [get_removeBody]
  by_cases hbc : b = c
  · subst hbc
    have hnone : (index.ofTx txid)[b]? = none := by
      refine (Db.not_mem_iff _ _).mp fun hmem => ?_
      obtain ⟨body, hbody, -⟩ := hbacked hmem
      exact hfresh (Db.mem_of_get hbody)
    split
    · exact hnone.symm
    next hnot =>
      rcases get_insertTxs index b txid body.transactions 0 with
        ⟨n, tx, htx, rfl, -⟩ | ⟨-, hentry⟩
      · exact absurd ⟨List.mem_map_of_mem (List.mem_of_getElem? htx), rfl⟩ hnot
      · exact hentry
  · rw [if_neg fun h => hbc h.2, get_insertBody_of_ne body hbc]

end Inclusions

/-- The guard under which no mainchain block is disconnected and no block is invalidated. -/
def Guard.forward : Guard := ⟨fun _ _ => True, fun _ _ => False, fun _ _ => False⟩

namespace Archive

/-- A body is stored where there is none, or the same one. -/
def Once (a : Archive) (b : BlockHash) (body : Body) : Prop :=
  ∀ old, a.bodies[b]? = some old → old = body

/-- A call of a node that disconnects no mainchain block, invalidates no block and stores no
second body. -/
def Forward (m : Mainchain) (a a' : Archive) : Prop :=
  Call m .forward a a' ∧ a.BodyStep Once a'

/-- What such calls keep. -/
structure Kept (m : Mainchain) (a : Archive) : Prop where
  stored : Stored m a
  tips : TipsStored m a
  ranked : a.Ranked
  settled : Settled a
  valid : ∀ b, b ∉ a.invalidBlocks
  occupied : a.txidToInclusions.Occupied
  backed : a.txidToInclusions.Backed a.bodies

variable {m : Mainchain} {a a' : Archive} {b : BlockHash} {body : Body}

theorem Kept.new (m : Mainchain) : Kept m .new where
  stored := .new m
  tips := .new m
  ranked := .new
  settled := .new
  valid _ := Db.not_mem_empty _
  occupied txid inclusions h := by
    cases (Db.get_empty _).symm.trans h
  backed txid b h := by
    rw [Inclusions.ofTx, show Archive.new.txidToInclusions[txid]? = none from Db.get_empty _] at h
    exact absurd h (Db.not_mem_empty _)

theorem backed_discardBody {index : Inclusions} {bodies : Db BlockHash Body}
    (hoccupied : index.Occupied) (hbacked : index.Backed bodies) (b : BlockHash) :
    (index.discardBody b bodies[b]?).Occupied ∧
      (index.discardBody b bodies[b]?).Backed (bodies.erase b) := by
  cases hbody : bodies[b]? with
  | some body =>
    rw [Inclusions.discardBody_some]
    exact ⟨hoccupied.removeBody b body, hbacked.removeBody hbody⟩
  | none =>
    rw [Db.erase_of_not_mem ((Db.not_mem_iff _ _).mpr hbody)]
    exact ⟨hoccupied, hbacked⟩

theorem backed_invalidateStack {fuel : Nat} {stack : List BlockHash}
    (hoccupied : a.txidToInclusions.Occupied) (hbacked : a.txidToInclusions.Backed a.bodies) :
    (a.invalidateStack fuel stack).txidToInclusions.Occupied ∧
      (a.invalidateStack fuel stack).txidToInclusions.Backed (a.invalidateStack fuel stack).bodies := by
  induction fuel generalizing a stack with
  | zero => exact ⟨hoccupied, hbacked⟩
  | succ fuel ih =>
    cases stack with
    | nil => exact ⟨hoccupied, hbacked⟩
    | cons x stack =>
      obtain ⟨hoccupied, hbacked⟩ := backed_discardBody hoccupied hbacked x
      exact ih hoccupied hbacked

theorem BodyStep.backed (hstep : a.BodyStep Once a') (hoccupied : a.txidToInclusions.Occupied)
    (hbacked : a.txidToInclusions.Backed a.bodies) :
    a'.txidToInclusions.Occupied ∧ a'.txidToInclusions.Backed a'.bodies := by
  cases hstep with
  | putBody honce hput =>
    obtain ⟨_, rfl, -⟩ := putBody_tips hput
    exact ⟨hoccupied.insertBody _ _, hbacked.insertBody honce⟩
  | deleteBody hbody hdelete =>
    obtain ⟨_, rfl, -⟩ := deleteBody_tips hdelete
    exact ⟨hoccupied.removeBody _ _, hbacked.removeBody hbody⟩
  | invalidateBlock b => exact backed_invalidateStack hoccupied hbacked
  | other hbodies hindex =>
    rw [hbodies, hindex]
    exact ⟨hoccupied, hbacked⟩

theorem Call.invalidBlocks_eq (h : Call m .forward a a') : a'.invalidBlocks = a.invalidBlocks := by
  cases h with
  | header _ hput =>
    obtain ⟨_, _, _, _, -, -, -, -, rfl⟩ := putHeader_ok hput
    rfl
  | body hput =>
    obtain ⟨_, rfl, -⟩ := putBody_tips hput
    rfl
  | deleteBody hdelete =>
    obtain ⟨_, rfl, -⟩ := deleteBody_tips hdelete
    rfl
  | ancestorInfo _ hput =>
    obtain ⟨_, hheader, hinfo⟩ := bind_eq_ok.mp hput
    obtain ⟨-, _, _, _, _, -, -, -, -, rfl⟩ := putMainHeaderInfo_ok hheader
    obtain ⟨_, -, -, ⟨rfl, -⟩ | ⟨_, _, _, -, -, -, rfl⟩⟩ := putMainBlockInfo_ok hinfo <;> rfl
  | connectMainchainTip _ _ hconnect =>
    obtain ⟨-, ⟨sideTips, rfl⟩, -, -⟩ := connectMainchainTip_mem hconnect
    rfl
  | disconnectBlock hnever => exact hnever.elim
  | invalidateBlock _ hnever => exact hnever.elim

/-- As long as no block is invalidated, no header of an invalidated block is stored. -/
theorem Call.valid (hvalid : ∀ b, b ∉ a.invalidBlocks) (h : Call m .forward a a') :
    Call m { Guard.forward with stores := fun a header => header.hash ∉ a.invalidBlocks } a a' := by
  cases h with
  | header _ hput => exact .header (.inr (hvalid _)) hput
  | body hput => exact .body hput
  | deleteBody hdelete => exact .deleteBody hdelete
  | ancestorInfo hreported hput => exact .ancestorInfo hreported hput
  | connectMainchainTip hheader hinfo hconnect => exact .connectMainchainTip hheader hinfo hconnect
  | disconnectBlock hnever => exact hnever.elim
  | invalidateBlock _ hnever => exact hnever.elim

theorem Kept.forward (hcf : CollisionFree) (h : Kept m a) (hstep : a.Forward m a') : Kept m a' := by
  obtain ⟨hcall, hbodies⟩ := hstep
  have hsteps := hcall.steps h.stored.main
  obtain ⟨hoccupied, hbacked⟩ := hbodies.backed h.occupied h.backed
  exact {
    stored := h.stored.call hcf hcall
    tips := h.tips.steps hcf (fun _ _ hnever => hnever.elim) h.stored hsteps
    ranked := h.ranked.steps hcf (fun _ _ hnever => hnever.elim) h.stored h.tips hsteps
    settled := h.settled.call hcf h.stored (fun _ _ hnot => hnot)
      (fun _ _ (hnever : False) => hnever.elim) (hcall.valid h.valid)
    valid := fun b => by
      rw [hcall.invalidBlocks_eq]
      exact h.valid b
    occupied := hoccupied
    backed := hbacked }

theorem kept_run (hcf : CollisionFree) (hrun : ReflTransGen (Forward m) .new a) : Kept m a := by
  induction hrun with
  | refl => exact .new m
  | tail _ hstep ih => exact ih.forward hcf hstep

section Tips

variable {x : BlockHash}

theorem get_connectSidechainTip {tips tips' : SideTips} {mainHash : MainBlockHash} {work : Nat}
    {prev : Option BlockHash} (h : tips.connectSidechainTip mainHash work b prev = .ok tips')
    (hne : b ≠ x) : tips'.sidechainTips[x]? = tips.sidechainTips[x]? := by
  rcases SideTips.connectSidechainTip_ok h with ⟨-, rfl⟩ | ⟨-, height, -, rfl⟩
  · rfl
  · exact Db.get_insert_ne _ _ hne

variable {queue : List BlockHash}

theorem get_updateSideTips {header : Header} (h : a.updateSideTips b header = .ok (a', queue))
    (hne : b ≠ x) : a'.sideTips.sidechainTips[x]? = a.sideTips.sidechainTips[x]? := by
  obtain ⟨⟨next, connected⟩, hfold, h⟩ := bind_eq_ok.mp h
  have hnext : next.sideTips.sidechainTips[x]? = a.sideTips.sidechainTips[x]? := by
    refine foldlM_invariant (P := fun acc =>
      acc.1.sideTips.sidechainTips[x]? = a.sideTips.sidechainTips[x]?) rfl ?_ hfold
    rintro result ⟨acc, done⟩ acc' - hacc hstep
    rcases connectVerification_ok hstep with ⟨-, rfl⟩ | ⟨-, _, _, -, hconnect, rfl⟩
    · exact hacc
    · exact (get_connectSidechainTip hconnect hne).trans hacc
  cases connected with
  | false =>
    cases h
    exact hnext
  | true =>
    obtain ⟨_, -, h⟩ := bind_eq_ok.mp h
    cases h
    exact hnext

theorem SideStored.withTips (h : SideStored a) (bodies : Db BlockHash Body) (sideTips : SideTips)
    (txidToInclusions : Inclusions) : SideStored { a with bodies, sideTips, txidToInclusions } :=
  { h with describes := h.describes }

theorem updateSideTips_children (hside : SideStored a) {header : Header}
    (h : a.updateSideTips b header = .ok (a', queue)) : ∀ x ∈ queue, a.sideParent x = some b := by
  obtain ⟨sideTips, rfl, -⟩ := updateSideTips_tips h
  obtain ⟨⟨next, connected⟩, -, h⟩ := bind_eq_ok.mp h
  cases connected with
  | false =>
    cases h
    exact List.forall_mem_nil _
  | true =>
    obtain ⟨successors, hsuccessors, h⟩ := bind_eq_ok.mp h
    cases h
    intro x hx
    obtain ⟨header, hheader, hp⟩ := (hside.successors (okOr_eq_ok.mp hsuccessors) x).mp
      (Std.ExtTreeMap.mem_keys.mp hx)
    rw [SideStored.sideParent_eq hheader, hp]

/-- The blocks in the queue descend from the block whose body is stored, and no other block
becomes a tip. -/
theorem get_updateQueue (hside : SideStored a) {fuel : Nat}
    (hqueue : ∀ y ∈ queue, Descends a.sideParent b y) (hx : ¬ Descends a.sideParent b x)
    (h : updateQueue fuel a queue = .ok a') :
    a'.sideTips.sidechainTips[x]? = a.sideTips.sidechainTips[x]? := by
  induction fuel generalizing a queue with
  | zero => exact Except.ok.inj h ▸ rfl
  | succ fuel ih =>
    cases queue with
    | nil => exact Except.ok.inj h ▸ rfl
    | cons c queue =>
      obtain ⟨hc, hqueue⟩ := List.forall_mem_cons.mp hqueue
      unfold updateQueue at h
      split at h
      case isTrue => exact ih hside hqueue hx h
      case isFalse =>
        obtain ⟨header, -, h⟩ := bind_eq_ok.mp h
        obtain ⟨⟨next, successors⟩, hfirst, h⟩ := bind_eq_ok.mp h
        have hne : c ≠ x := by
          rintro rfl
          exact hx hc
        have hchildren := updateSideTips_children hside hfirst
        have hsame := get_updateSideTips hfirst hne
        obtain ⟨sideTips, rfl, -⟩ := updateSideTips_tips hfirst
        have hnext : ∀ y ∈ queue ++ successors, Descends a.sideParent b y := by
          intro y hy
          rcases List.mem_append.mp hy with hy | hy
          · exact hqueue y hy
          · exact hc.trans (.of_parent (hchildren y hy))
        exact (ih (hside.withTips a.bodies sideTips a.txidToInclusions) hnext hx h).trans hsame

theorem get_putBody (hside : SideStored a) (hx : ¬ Descends a.sideParent b x)
    (h : a.putBody b body = .ok a') :
    a'.sideTips.sidechainTips[x]? = a.sideTips.sidechainTips[x]? := by
  obtain ⟨header, -, h⟩ := bind_eq_ok.mp h
  obtain ⟨⟨next, queue⟩, hfirst, h⟩ := bind_eq_ok.mp h
  have hne : b ≠ x := by
    rintro rfl
    exact hx (.refl b)
  have hchildren := updateSideTips_children
    (hside.withTips (a.bodies.insert b body) a.sideTips (a.txidToInclusions.insertBody b body)) hfirst
  have hsame := get_updateSideTips hfirst hne
  obtain ⟨sideTips, rfl, -⟩ := updateSideTips_tips hfirst
  have hrest := get_updateQueue
    (hside.withTips (a.bodies.insert b body) sideTips (a.txidToInclusions.insertBody b body))
    (fun y hy => .of_parent (hchildren y hy)) hx h
  exact hrest.trans hsame

theorem get_disconnectSidechainTip {tips : SideTips} (hne : b ≠ x) :
    (tips.disconnectSidechainTip b).sidechainTips[x]? = tips.sidechainTips[x]? := by
  unfold SideTips.disconnectSidechainTip
  split
  · rfl
  · exact Db.get_erase_ne _ hne

theorem get_disconnectQueue (hside : SideStored a) {fuel : Nat}
    (hqueue : ∀ y ∈ queue, Descends a.sideParent b y) (hx : ¬ Descends a.sideParent b x)
    (h : disconnectQueue fuel a queue = .ok a') :
    a'.sideTips.sidechainTips[x]? = a.sideTips.sidechainTips[x]? := by
  induction fuel generalizing a queue with
  | zero => exact Except.ok.inj h ▸ rfl
  | succ fuel ih =>
    cases queue with
    | nil => exact Except.ok.inj h ▸ rfl
    | cons c queue =>
      obtain ⟨hc, hqueue⟩ := List.forall_mem_cons.mp hqueue
      unfold disconnectQueue at h
      split at h
      case isTrue => exact ih hside hqueue hx h
      case isFalse =>
        obtain ⟨successors, hsuccessors, h⟩ := bind_eq_ok.mp h
        have hne : c ≠ x := by
          rintro rfl
          exact hx hc
        have hnext : ∀ y ∈ queue ++ successors.keys, Descends a.sideParent b y := by
          intro y hy
          rcases List.mem_append.mp hy with hy | hy
          · exact hqueue y hy
          · obtain ⟨header, hheader, hp⟩ := (hside.successors (okOr_eq_ok.mp hsuccessors) y).mp
              (Std.ExtTreeMap.mem_keys.mp hy)
            exact hc.trans (.of_parent ((SideStored.sideParent_eq hheader).trans hp))
        have hrest := ih (hside.withTips a.bodies (a.sideTips.disconnectSidechainTip c)
          a.txidToInclusions) hnext hx h
        exact hrest.trans (get_disconnectSidechainTip hne)

end Tips

theorem Settled.not_mem_of_descends (h : Settled a) (hb : b ∉ a.bodies) {x : BlockHash}
    (hx : Descends a.sideParent b x) : x ∉ a.sideTips.sidechainTips := fun hmem =>
  hb (h.grounded b (h.ancestor hmem hx)).1

/-- The order of the tips is known by the tips. -/
theorem orderedSidechainTips_eq (htips : TipsStored m a) (hranked : a.Ranked)
    (htips' : TipsStored m a') (hranked' : a'.Ranked)
    (hsame : a'.sideTips.sidechainTips = a.sideTips.sidechainTips) :
    a'.sideTips.orderedSidechainTips = a.sideTips.orderedSidechainTips := by
  refine Db.ext fun info => Option.ext fun b => ⟨fun hget => ?_, fun hget => ?_⟩
  · have htip := htips'.ordered hget
    rw [hsame] at htip
    exact hranked htip
  · have htip := htips.ordered hget
    rw [← hsame] at htip
    exact hranked' htip

/-- Calls other than those on bodies leave the bodies and the index as they are. -/
theorem forward_header {header : Header} (hput : a.putHeader header = .ok a') : a.Forward m a' := by
  refine ⟨.header (.inr trivial) hput, ?_⟩
  obtain ⟨_, _, _, _, -, -, -, -, rfl⟩ := putHeader_ok hput
  exact .other rfl rfl

theorem forward_ancestorInfo {headerInfo : BlockHeaderInfo} {blockInfo : MainBlockInfo}
    (hreported : MainchainEvent.Reported m (.connectBlock headerInfo blockInfo))
    (hput : a.putAncestorInfo headerInfo blockInfo = .ok a') : a.Forward m a' := by
  refine ⟨.ancestorInfo hreported hput, ?_⟩
  obtain ⟨_, hheader, hinfo⟩ := bind_eq_ok.mp hput
  obtain ⟨-, _, _, _, _, -, -, -, -, rfl⟩ := putMainHeaderInfo_ok hheader
  obtain ⟨_, -, -, ⟨rfl, -⟩ | ⟨_, _, _, -, -, -, rfl⟩⟩ := putMainBlockInfo_ok hinfo <;>
    exact .other rfl rfl

theorem forward_connectMainchainTip {headerInfo : BlockHeaderInfo} {blockInfo : MainBlockInfo}
    (hheader : a.mainHeaderInfos[headerInfo.blockHash]? = some headerInfo)
    (hinfo : a.mainBlockInfos[headerInfo.blockHash]? = some blockInfo)
    (hconnect : a.connectMainchainTip headerInfo blockInfo.bmmCommitment = .ok a') :
    a.Forward m a' := by
  refine ⟨.connectMainchainTip hheader hinfo hconnect, ?_⟩
  obtain ⟨-, ⟨sideTips, rfl⟩, -, -⟩ := connectMainchainTip_mem hconnect
  exact .other rfl rfl

end Archive

open Archive

theorem Node.forward_withArchive {m : Mainchain} {node : Node} {result : ArchiveResult Archive}
    (hrun : ReflTransGen (Forward m) .new node.archive)
    (h : ∀ archive, result = .ok archive → ReflTransGen (Forward m) node.archive archive) :
    ReflTransGen (Forward m) .new (node.withArchive result).1.archive := by
  cases result with
  | error => exact hrun
  | ok archive => exact hrun.trans (h archive rfl)

/-- Headers, bodies and mainchain blocks that arrive at a node are such calls, if no second
body arrives. -/
theorem Node.Reaches.forward (hcf : CollisionFree) {m : Mainchain} {node : Node}
    (h : node.Reaches m fun node op => op.arrives = true ∧
      ∀ b body, op = .body b body → node.archive.Once b body) :
    ReflTransGen (Forward m) .new node.archive := by
  induction h with
  | new => exact .refl
  | @exec node op hreach hop hallowed ih =>
    have hmain := (hreach.stored hcf).main
    obtain ⟨harrives, honce⟩ := hallowed
    cases op with
    | header header => exact forward_withArchive ih fun _ hput => .single (forward_header hput)
    | body b body =>
      exact forward_withArchive ih fun _ hput =>
        .single ⟨.body hput, .putBody (honce b body rfl) hput⟩
    | ancestorInfo headerInfo blockInfo =>
      exact forward_withArchive ih fun _ hput => .single (forward_ancestorInfo hop hput)
    | syncMainchainTip mainHash =>
      refine forward_withArchive ih fun _ hsync => ?_
      obtain ⟨headerInfo, hheader, hsync⟩ := bind_eq_ok.mp hsync
      obtain ⟨blockInfo, hinfo, hsync⟩ := bind_eq_ok.mp hsync
      have hget := okOr_eq_ok.mp hheader
      have hhash : headerInfo.blockHash = mainHash := by
        rw [hmain.header_eq hget, hmain.blockHash_eq (Db.mem_of_get hget)]
      exact .single (forward_connectMainchainTip (hhash ▸ hget) (okOr_eq_ok.mp hinfo) hsync)
    | mainchainEvent event =>
      cases event with
      | disconnectBlock hash => cases harrives
      | connectBlock headerInfo blockInfo =>
        refine forward_withArchive ih fun _ hhandle => ?_
        obtain ⟨stored, hput, hconnect⟩ := connectBlock_ok hhandle
        obtain ⟨hheader, hinfo, -⟩ := putAncestorInfo_get hput
        exact .head (forward_ancestorInfo hop hput)
          (.single (forward_connectMainchainTip hheader hinfo hconnect))
    | mainchainBlockEvent ctxt => cases harrives
    | reorg ctxt newTip => cases harrives
    | invalidate blockHash => cases harrives

/-- Deleting a body right after it was stored succeeds and gives back the archive, whatever
descendants of the block had bodies. -/
theorem deleteBody_undoes_putBody (hcf : CollisionFree) {m : Mainchain} {a a' : Archive}
    (hrun : ReflTransGen (Forward m) .new a) {b : BlockHash} {body : Body} (hfresh : b ∉ a.bodies)
    (hput : a.putBody b body = .ok a') : a'.deleteBody b body = .ok a := by
  have h := kept_run hcf hrun
  have hputSteps : Steps m (fun _ _ => False) a a' := putBody_steps hput
  have hstored' := (h.stored.steps hcf hputSteps).1
  have htips' := h.tips.steps hcf (fun _ _ hnever => hnever.elim) h.stored hputSteps
  have hranked' := h.ranked.steps hcf (fun _ _ hnever => hnever.elim) h.stored h.tips hputSteps
  have hsettled' := h.settled.putBody hput
  obtain ⟨a'', hdelete⟩ := exists_deleteBody hstored'.side hsettled' b body
  have hdeleteSteps : Steps m (fun _ _ => False) a' a'' := deleteBody_steps hdelete
  have htips'' := htips'.steps hcf (fun _ _ hnever => hnever.elim) hstored' hdeleteSteps
  have hranked'' := hranked'.steps hcf (fun _ _ hnever => hnever.elim) hstored' htips' hdeleteSteps
  have hsettled'' := hsettled'.deleteBody hstored'.side hdelete
  -- outside of the subtree nothing changes, and inside there is no tip before and after
  have hbefore : ∀ x, ¬ Descends a.sideParent b x →
      a'.sideTips.sidechainTips[x]? = a.sideTips.sidechainTips[x]? :=
    fun x hx => get_putBody h.stored.side hx hput
  have hafter : ∀ x, ¬ Descends a'.sideParent b x →
      a''.sideTips.sidechainTips[x]? = a'.sideTips.sidechainTips[x]? := by
    intro x hx
    have hqueue : ∀ y ∈ [b], Descends a'.sideParent b y :=
      List.forall_mem_singleton.mpr (.refl b)
    have hside := hstored'.side.withTips (a'.bodies.erase b) a'.sideTips
      (a'.txidToInclusions.removeBody b body)
    have hget := get_disconnectQueue hside hqueue hx hdelete
    exact hget
  obtain ⟨sideTips', rfl, hmain'⟩ := putBody_tips hput
  obtain ⟨sideTips'', rfl, hmain''⟩ := deleteBody_tips hdelete
  have hnone : b ∉ (a.bodies.insert b body).erase b := fun hmem =>
    ((Db.mem_erase _ _ _).mp hmem).1 rfl
  have hsame : sideTips''.sidechainTips = a.sideTips.sidechainTips := by
    refine Db.ext fun x => ?_
    by_cases hx : Descends a.sideParent b x
    · have hout := (Db.not_mem_iff _ _).mp (hsettled''.not_mem_of_descends hnone hx)
      rw [(Db.not_mem_iff _ _).mp (h.settled.not_mem_of_descends hfresh hx)]
      exact hout
    · exact (hafter x hx).trans (hbefore x hx)
  have hordered := orderedSidechainTips_eq h.tips h.ranked htips'' hranked'' hsame
  have htipsEq : sideTips'' = a.sideTips := by
    cases sideTips''
    cases hsideTips : a.sideTips
    rw [hsideTips] at hsame hordered hmain'
    cases hsame
    cases hordered
    cases hmain''.trans hmain'
    rfl
  rw [hdelete, htipsEq, Db.erase_insert_of_fresh _ hfresh,
    Inclusions.removeBody_insertBody h.occupied h.backed hfresh body]

end

namespace Instance

/-- A block and its child are known. -/
def headersNode : Node := Node.new.run (headerOps ++ [.header spendHeader])

/-- Only the child has a body. -/
def waitingNode : Node := (headersNode.exec (.body spendHeader.hash spendBody)).1

/-- The archive after the body of the block is stored. -/
def connectedArchive : Archive :=
  (waitingNode.archive.putBody mintHeader.hash mintBody).toOption.getD .new

theorem deleteBody_undoes_putBody_waiting :
    waitingNode.archive.putBody mintHeader.hash mintBody = .ok connectedArchive ∧
      spendHeader.hash ∈ connectedArchive.sideTips.sidechainTips ∧
      connectedArchive.deleteBody mintHeader.hash mintBody = .ok waitingNode.archive := by
  have hput : waitingNode.archive.putBody mintHeader.hash mintBody = .ok connectedArchive :=
    eq_ok_getD _ (by decide +kernel)
  have hheaders : headersNode.Reaches mintMain fun node op => op.arrives = true ∧
      ∀ b body, op = .body b body → node.archive.Once b body := by
    refine .run .new (by decide +kernel) ⟨⟨rfl, ?_⟩, ⟨rfl, ?_⟩, ⟨rfl, ?_⟩, ⟨rfl, ?_⟩, ⟨rfl, ?_⟩,
      trivial⟩ <;> exact fun _ _ heq => by cases heq
  have hnone : headersNode.archive.bodies[spendHeader.hash]? = none := by decide +kernel
  have hreach : waitingNode.Reaches mintMain fun node op => op.arrives = true ∧
      ∀ b body, op = .body b body → node.archive.Once b body := by
    refine .exec hheaders trivial ⟨rfl, fun b body heq old hold => ?_⟩
    cases heq
    rw [hnone] at hold
    cases hold
  exact ⟨hput, by decide +kernel,
    deleteBody_undoes_putBody collisionFree (hreach.forward collisionFree) (by decide +kernel) hput⟩

end Instance

end PlainBitnames
