import Straks.Proof.ElectionStep

namespace Straks.Election

open Run Chain Coins List

variable {env : Env} {view : View} {dsee : Dsee}

theorem checkDsee_ok (passed : checkDsee env view dsee = .ok ()) : dsee.verifies env = true := by
  simp only [checkDsee] at passed
  split_ifs at passed with future percentage version size size2 script bad port
  simpa using bad

theorem checkCollateral_ok (backed : checkCollateral env view dsee = .ok ()) :
    isVinAssociatedWithPubkey env.signer view.coins view.unspecified dsee.vin dsee.pubkey = true ∧
      acceptableInputs env view.coins (collateralTransaction env dsee.vin) = .ok () := by
  cases associated : isVinAssociatedWithPubkey env.signer view.coins view.unspecified dsee.vin dsee.pubkey with
  | false => simp [checkCollateral, associated] at backed
  | true =>
    cases accepted : acceptableInputs env view.coins (collateralTransaction env dsee.vin) with
    | ok _ => exact ⟨rfl, rfl⟩
    | error error => cases error <;> simp [checkCollateral, associated, accepted] at backed

/-- Inputs are accepted only while each is an unspent output. -/
theorem acceptableInputs_unspent {view : CoinsView} {tx : CTransaction}
    (accepted : acceptableInputs env view tx = .ok ()) {txin : CTxIn} (member : txin ∈ tx.vin) :
    ∃ txout, getOutput view.utxo txin.prevout = some txout := by
  obtain ⟨_, -, accepted⟩ := Success.bind_eq_ok.mp accepted
  split_ifs at accepted with coinbase known conflict confirmed missing spent
  simp only [haveInputs, coinbase, Bool.false_or, Bool.not_eq_true', Bool.not_eq_false, all_eq_true] at spent
  exact Option.isSome_iff_exists.mp (spent txin member)

/-- The named output is unspent, worth enough, and pays to the key. -/
def Backed (signer : SignHelper) (view : CoinsView) (mn : CMasternode) : Prop :=
  getOutput view.utxo mn.vin.prevout = some ⟨masternodeAmount * coin, getScriptForKey signer mn.pubkey⟩

instance (signer : SignHelper) (view : CoinsView) (mn : CMasternode) : Decidable (Backed signer view mn) :=
  inferInstanceAs (Decidable (_ = _))

/-- The collateral of a new announcement can only be the named output, and its search ends. -/
def OnlyNamedCollateral (env : Env) (node : Node) : View × Event → Prop
  | (view, .dsee dsee) => node.man.find dsee.vin = none →
      view.unspecified = false ∧
        ∀ txVin, view.coins.getTransaction dsee.vin.prevout.hash = some txVin →
          ∀ n out, txVin.vout[n]? = some out → isCollateral env.signer dsee.pubkey out = true →
            n = dsee.vin.prevout.n.toNat
  | _ => True

/-- A search that only the named output ends finds it. -/
theorem collateral_backed {node : Node} (only : OnlyNamedCollateral env node (view, .dsee dsee))
    (missing : node.man.find dsee.vin = none) (passed : checkCollateral env view dsee = .ok ()) :
    getOutput view.coins.utxo dsee.vin.prevout =
      some ⟨masternodeAmount * coin, getScriptForKey env.signer dsee.pubkey⟩ := by
  obtain ⟨associated, accepted⟩ := checkCollateral_ok passed
  obtain ⟨result, unique⟩ := only missing
  obtain ⟨txout, unspent⟩ := acceptableInputs_unspent accepted (mem_singleton_self dsee.vin)
  cases found : view.coins.getTransaction dsee.vin.prevout.hash with
  | none => simp [isVinAssociatedWithPubkey, found] at associated
  | some txVin =>
    simp only [isVinAssociatedWithPubkey, found, result, Bool.if_false_right, Bool.and_true, decide_eq_true_eq,
      any_eq_true] at associated
    obtain ⟨out, member, collateral⟩ := associated
    obtain ⟨n, place⟩ := mem_iff_getElem?.mp member
    have named := view.coins.unspentOf _ _ _ found unspent
    rw [← unique txVin found n out place collateral, place, Option.some.injEq] at named
    subst named
    simp only [isCollateral, Bool.and_eq_true, beq_iff_eq] at collateral
    rw [unspent, ← collateral.1, ← collateral.2]

/-- The entry is put on the list by the event. -/
def Admits (env : Env) (node : Node) (event : View × Event) (mn : CMasternode) : Prop :=
  mn ∈ (node.step env event).man.vMasternodes ∧ node.man.find mn.vin = none

instance (env : Env) (node : Node) (event : View × Event) (mn : CMasternode) : Decidable (Admits env node event mn) :=
  inferInstanceAs (Decidable (_ ∧ _))

/-- Only a verified announcement puts an entry on the list. -/
theorem Admits.added {node : Node} {event : Event} {mn : CMasternode} (admitted : Admits env node (view, event) mn) :
    ∃ dsee, event = .dsee dsee ∧ dsee.verifies env = true ∧ checkCollateral env view dsee = .ok () ∧
      node.man.find dsee.vin = none ∧ mn.vin = dsee.vin ∧ mn.pubkey = dsee.pubkey := by
  have absent := find_eq_none.mp admitted.2
  cases handle_origin admitted.1 with
  | kept before member kept =>
    have vin : mn.vin = before.vin := congrArg Dsee.vin kept.announced
    exact absurd (congrArg CTxIn.prevout vin.symm) (absent before member)
  | updated before dsee member announced passed known key value =>
    subst value
    exact absurd rfl (absent before member)
  | added dsee announced passed backed missing value =>
    subst value
    exact ⟨dsee, announced, checkDsee_ok passed, backed, missing, normalise_vin dsee, normalise_pubkey dsee⟩

/-- In every run in which the collateral can only be the named output, an entry is put on the list by an announcement
its own key signed, and the named output is then its unspent collateral. -/
theorem admitted_backed (env : Env) (start : Node) (events : List (View × Event))
    (throughout : Throughout (Node.step env) (OnlyNamedCollateral env) start events)
    (before after : List (View × Event)) (view : View) (event : Event)
    (split : events = before ++ (view, event) :: after) (mn : CMasternode)
    (admitted : Admits env (run (Node.step env) start before) (view, event) mn) :
    ∃ dsee, event = .dsee dsee ∧ dsee.verifies env = true ∧ mn.vin = dsee.vin ∧ mn.pubkey = dsee.pubkey ∧
      Backed env.signer view.coins mn := by
  subst split
  have meets := (throughout_append.mp throughout).2.1
  obtain ⟨dsee, rfl, verified, passed, missing, vin, pubkey⟩ := admitted.added
  have backed := collateral_backed meets missing passed
  rw [← vin, ← pubkey] at backed
  exact ⟨dsee, rfl, verified, vin, pubkey, backed⟩

/-- A view with the outputs of one transaction unspent. -/
def CoinsView.ofTransaction (hash : Uint256) (tx : CTransaction) (nTipHeight : Int) : CoinsView where
  utxo := UtxoSet.empty.store hash ⟨false, tx.vout, 1, tx.nVersion⟩
  nTipHeight := nTipHeight
  poolExists := fun _ => false
  mapNextTx := fun _ => none
  getTransaction := fun other => if other = hash then some tx else none
  unspentOf := by
    intro prevout found txout same unspent
    split_ifs at same with named
    rw [← Option.some.inj same]
    simp only [getOutput, named, UtxoSet.getCoins_store_self, Option.bind_eq_some_iff] at unspent
    obtain ⟨coins, stored, unspent⟩ := unspent
    split_ifs at unspent
    obtain rfl : CCoins.cleanup ⟨false, tx.vout, 1, tx.nVersion⟩ = coins := by
      simp only [CCoins.unspent] at stored
      split_ifs at stored
      exact Option.some.inj stored
    obtain ⟨spent, whole⟩ := List.rdropWhile_prefix CTxOut.isNull tx.vout
    simp only [CCoins.cleanup] at unspent
    rw [← whole, List.getElem?_append_left (List.getElem?_eq_some_iff.mp unspent).1]
    exact unspent

/-- What calls at the views answer. -/
def masternodeInputAges (vin : CTxIn) : InputAgeCache → List CoinsView → List Int
  | _, [] => []
  | cache, view :: rest =>
    let (age, cache) := getMasternodeInputAge vin cache (some view)
    age :: masternodeInputAges vin cache rest

/-- A remembered age only follows the tip. -/
theorem masternodeInputAges_cached {vin : CTxIn} {cache : InputAgeCache} (cached : cache.cacheInputAge ≠ 0)
    (views : List CoinsView) : masternodeInputAges vin cache views =
      views.map fun view => cache.cacheInputAge + (view.nTipHeight - cache.cacheInputAgeBlock) := by
  induction views with
  | nil => rfl
  | cons view rest ih => simp [masternodeInputAges, getMasternodeInputAge, cached, ih]

/-- Keys are their bytes, and the signature of a message is its length. -/
def lengthSigner : SignHelper where
  getHash := fun texts => BitVec.ofNat 256 texts.flatten.length
  recoverCompact := fun hash vchSig => if vchSig = littleEndian 2 hash.toNat then some [2] else none
  getID := fun pubkey => BitVec.ofNat 160 (pubkey.map UInt8.toNat).sum

def regtestEnv : Env where
  signer := lengthSigner
  getHash := fun _ => 1
  serviceToString := fun service => DecimalText.decimalText service.port.toNat
  network := .regtest
  fProUserModeDarksendInstantX2 := false
  fEnableReplacement := true
  collateralPubKey := [0x51]

/-- The announcement with the signature of the key. -/
def Dsee.signed (dsee : Dsee) : Dsee :=
  { dsee with vchSig := littleEndian 2 (strMessageMagic ++ dsee.strMessage regtestEnv).length }

/-- What the key would lock up. -/
def ownOutput : CTxOut := ⟨masternodeAmount * coin, getScriptForKey lengthSigner [2]⟩

/-- A synchronised node's view at a time, with one transaction's outputs. -/
def View.of (now : Int) (vout : List CTxOut) : View where
  getAdjustedTime := now
  getTime := now
  isInitialBlockDownload := false
  coins := .ofTransaction 7 ⟨2, [], vout, 0⟩ 100
  unspecified := false
  confirmedAt := fun _ => none
  lockRecv := fun _ => true
  fMasterNode := false
  activeVin := nullTxIn
  pubKeyMasternode := []

/-- The key announces the output of that number. -/
def announcement (n : UInt32) (sigTime lastUpdated : Int) (donationAddress : CScript) : Dsee :=
  Dsee.signed ⟨⟨⟨7, n⟩, [], Script.sequenceFinal, []⟩, ⟨0xffff01020304, 7575⟩, [], sigTime, [2], [3], -1, -1,
    lastUpdated, protocolVersion, donationAddress, 0⟩

/-- The sole output is the only possible collateral. -/
theorem onlyNamedCollateral_sole (node : Node) (now : Int) (out : CTxOut) (sigTime lastUpdated : Int)
    (donationAddress : CScript) : OnlyNamedCollateral regtestEnv node
      (.of now [out], .dsee (announcement 0 sigTime lastUpdated donationAddress)) := by
  intro _
  constructor
  · rfl
  · intro txVin found n other place _
    obtain rfl : (⟨2, [], [out], 0⟩ : CTransaction) = txVin := Option.some.inj found
    have within := (List.getElem?_eq_some_iff.mp place).1
    exact Nat.lt_one_iff.mp within

/-- The key announces the output it pays itself. -/
theorem admitted_backed_sole :
    ∃ dsee, Event.dsee (announcement 0 1000 0 []) = .dsee dsee ∧ dsee.verifies regtestEnv = true ∧
      (announcement 0 1000 0 []).vin = dsee.vin ∧ (announcement 0 1000 0 []).pubkey = dsee.pubkey ∧
      Backed lengthSigner (View.of 1000 [ownOutput]).coins
        ((announcement 0 1000 0 []).masternode.updateLastSeen 1000 0) :=
  admitted_backed regtestEnv Node.start [(.of 1000 [ownOutput], .dsee (announcement 0 1000 0 []))]
    ⟨onlyNamedCollateral_sole _ _ _ _ _ _, trivial⟩ [] [] (.of 1000 [ownOutput]) (.dsee (announcement 0 1000 0 []))
    rfl ((announcement 0 1000 0 []).masternode.updateLastSeen 1000 0) (by decide +kernel)

/-- The key pays itself in the first output and announces the second, somebody else's. -/
theorem admitted_backed_stray : ∃ mn, Admits regtestEnv Node.start
        (.of 1000 [ownOutput, ⟨masternodeAmount * coin, [0x51]⟩], .dsee (announcement 1 1000 0 [])) mn ∧
      ¬ Backed lengthSigner (View.of 1000 [ownOutput, ⟨masternodeAmount * coin, [0x51]⟩]).coins mn :=
  ⟨(announcement 1 1000 0 []).masternode.updateLastSeen 1000 0, by decide +kernel, by decide +kernel⟩

end Straks.Election
