import Straks.Construction.Election.Collateral
import Straks.Construction.Script.Text

namespace Straks.Election

open Chain Coins Script DecimalText

def minPeerProtoVersion : Int := 70103

def protocolVersion : Int := 70104

def masternodeMinConfirmations : Int := 15

def masternodeMinDseepSeconds : Int := 30 * 60

def masternodeMinDseeSeconds : Int := 10 * 60

def masternodeExpirationSeconds : Int := 65 * 60

def masternodeRemovalSeconds : Int := 70 * 60

def masternodesDsegSeconds : Int := 3 * 60 * 60

def masternodeScanningErrorThreshold : Int := 6

def CService.getByte (service : CService) (n : Nat) : Nat :=
  service.ip.toNat / 256 ^ n % 256

def CService.isIPv4 (service : CService) : Bool :=
  service.ip.toNat / 256 ^ 4 == 0xffff

/-- The address belongs to a private network. -/
def CService.isRFC1918 (service : CService) : Bool :=
  service.isIPv4 && (service.getByte 3 == 10 ||
    (service.getByte 3 == 192 && service.getByte 2 == 168) ||
    (service.getByte 3 == 172 && (16 ≤ service.getByte 2 && service.getByte 2 ≤ 31)))

def CService.isLocal (service : CService) : Bool :=
  (service.isIPv4 && (service.getByte 3 == 127 || service.getByte 3 == 0)) || service.ip == 1

/-- Inputs are compared without their witness. -/
def sameTxIn (left right : CTxIn) : Bool :=
  left.prevout == right.prevout && left.scriptSig == right.scriptSig && left.nSequence == right.nSequence

/-- The input that names nothing. -/
def nullTxIn : CTxIn := ⟨⟨0, 0xffffffff⟩, [], sequenceFinal, []⟩

inductive MasternodeState where
  | enabled
  | expired
  | vinSpent
  | remove
  | posError
  deriving DecidableEq, Repr

structure CMasternode where
  vin : CTxIn
  addr : CService
  pubkey : CPubKey
  pubkey2 : CPubKey
  sig : List UInt8
  activeState : MasternodeState
  sigTime : Int
  lastDseep : Int
  lastTimeSeen : Int
  unitTest : Bool
  protocolVersion : Int
  donationAddress : CScript
  donationPercentage : Int
  nVote : Int
  lastVote : Int
  nScanningErrorCount : Int
  nLastScanningErrorBlockHeight : Int
  deriving DecidableEq

/-- What a node sees of clock, chain and itself during one event. -/
structure View where
  /-- The time of the network. -/
  getAdjustedTime : Int
  /-- The time of the node's own clock. -/
  getTime : Int
  isInitialBlockDownload : Bool
  coins : CoinsView
  /-- What the caller finds where a function gave no result. -/
  unspecified : Bool
  /-- The time of the block giving the last required confirmation. -/
  confirmedAt : Uint256 → Option Int
  /-- The chain lock is free when this entry is checked. -/
  lockRecv : COutPoint → Bool
  fMasterNode : Bool
  activeVin : CTxIn
  pubKeyMasternode : CPubKey

/-- The announcement of a masternode. -/
structure Dsee where
  vin : CTxIn
  addr : CService
  vchSig : List UInt8
  sigTime : Int
  pubkey : CPubKey
  pubkey2 : CPubKey
  count : Int
  current : Int
  lastUpdated : Int
  protocolVersion : Int
  donationAddress : CScript
  donationPercentage : Int
  deriving DecidableEq

/-- The ping of a masternode. -/
structure Dseep where
  vin : CTxIn
  vchSig : List UInt8
  sigTime : Int
  stop : Bool
  deriving DecidableEq

structure Mvote where
  vin : CTxIn
  vchSig : List UInt8
  nVote : Int
  deriving DecidableEq

structure ScanningError where
  isValid : Bool
  nBlockHeight : Int
  success : Bool
  deriving DecidableEq

/-- What a peer is blamed for. -/
inductive Blame where
  | pubkeySize
  | badSignature
  | mismatchedPubkey
  | unacceptableInputs
  | immatureInput
  | askedAgain
  deriving DecidableEq, Repr

inductive Action where
  | misbehaving (howMuch : Int) (blame : Blame)
  | relayMasternodeEntry (entry : Dsee)
  | relayMasternodeEntryPing (ping : Dseep)
  | relayVote (vote : Mvote)
  | sendEntry (entry : Dsee)
  | askForEntry (vin : CTxIn)
  | addNewAddress (addr : CService)
  | enableHotColdMasterNode (vin : CTxIn) (addr : CService)
  deriving DecidableEq

variable (mn : CMasternode)

/-- The subtraction is one of signed 64-bit numbers. -/
def CMasternode.updatedWithin (now seconds : Int) : Bool :=
  Int.bmod (now - mn.lastTimeSeen) (2 ^ 64) < seconds

/-- The entry was seen at the given time, or just now. -/
def CMasternode.updateLastSeen (now override : Int) : CMasternode :=
  { mn with lastTimeSeen := if override = 0 then now else override }

def CMasternode.disable : CMasternode :=
  { mn with lastTimeSeen := 0 }

def CMasternode.isEnabled : Bool :=
  mn.activeState == .enabled

variable (env : Env) (view : View)

/-- The state found by a check. It never becomes enabled again. -/
def CMasternode.checkedState (mn : CMasternode) : MasternodeState :=
  if !view.lockRecv mn.vin.prevout then mn.activeState
  else if mn.nScanningErrorCount ≥ masternodeScanningErrorThreshold then .posError
  else if mn.activeState = .vinSpent then mn.activeState
  else if !mn.updatedWithin view.getAdjustedTime masternodeRemovalSeconds then .remove
  else if !mn.updatedWithin view.getAdjustedTime masternodeExpirationSeconds then .expired
  else if mn.unitTest then mn.activeState
  else
    match acceptableInputs env view.coins (collateralTransaction env mn.vin) with
    | .ok _ => mn.activeState
    | .error _ => .vinSpent

def CMasternode.check (mn : CMasternode) : CMasternode :=
  { mn with activeState := mn.checkedState env view }

/-- The number of errors starts again at the fourth. -/
def CMasternode.applyScanningError (mnse : ScanningError) : CMasternode :=
  if !mnse.isValid then mn
  else if mnse.nBlockHeight = mn.nLastScanningErrorBlockHeight then mn
  else
    { mn with
      nLastScanningErrorBlockHeight := mnse.nBlockHeight
      nScanningErrorCount :=
        if mnse.success then max (mn.nScanningErrorCount - 1) 0
        else if mn.nScanningErrorCount + 1 ≥ 4 then 0
        else min (mn.nScanningErrorCount + 1) (masternodeScanningErrorThreshold * 2) }

def keyText (pubkey : CPubKey) : List Char :=
  pubkey.map fun byte => Char.ofNat byte.toNat

variable (dsee : Dsee)

/-- The text the key of the collateral signs. -/
def Dsee.strMessage : List Char :=
  env.serviceToString dsee.addr ++ decimalText dsee.sigTime ++ keyText dsee.pubkey ++ keyText dsee.pubkey2 ++
    decimalText dsee.protocolVersion ++ scriptToString dsee.donationAddress ++ decimalText dsee.donationPercentage

/-- The signature of the announcement verifies. -/
def Dsee.verifies : Bool :=
  verifyMessage env.signer dsee.pubkey dsee.vchSig (dsee.strMessage env)

def wrongPort (addr : CService) : Bool :=
  match env.network with
  | .main => addr.port != 7575
  | .testnet => addr.port != 7565
  | .regtest => false

/-- What an announcement has to pass before the list is read. -/
def checkDsee : Except (List Action) Unit :=
  if dsee.sigTime > view.getAdjustedTime + 60 * 60 then .error []
  else if dsee.donationPercentage < 0 ∨ dsee.donationPercentage > 100 then .error []
  else if dsee.protocolVersion < minPeerProtoVersion then .error []
  else if (getScriptForKey env.signer dsee.pubkey).length ≠ 25 then .error [.misbehaving 100 .pubkeySize]
  else if (getScriptForKey env.signer dsee.pubkey2).length ≠ 25 then .error [.misbehaving 100 .pubkeySize]
  else if !dsee.vin.scriptSig.isEmpty then .error []
  else if !dsee.verifies env then .error [.misbehaving 100 .badSignature]
  else if wrongPort env dsee.addr then .error []
  else .ok ()

/-- The entry takes over what the announcement says. -/
def CMasternode.takeOver : CMasternode :=
  { mn with
    pubkey2 := dsee.pubkey2
    sigTime := dsee.sigTime
    sig := dsee.vchSig
    protocolVersion := dsee.protocolVersion
    addr := dsee.addr
    donationAddress := dsee.donationAddress
    donationPercentage := dsee.donationPercentage }

/-- An announcement of a masternode the list has. -/
def updateEntry (pmn : CMasternode) : CMasternode × List Action :=
  if dsee.count = -1 ∧ pmn.pubkey = dsee.pubkey ∧
      pmn.updatedWithin view.getAdjustedTime masternodeMinDseeSeconds = false then
    let seen := pmn.updateLastSeen view.getAdjustedTime 0
    if seen.sigTime < dsee.sigTime then
      let newest := (seen.takeOver dsee).check env view
      (newest, if newest.isEnabled then [.relayMasternodeEntry dsee] else [])
    else (seen, [])
  else (pmn, [])

/-- The collateral of a masternode not on the list. -/
def checkCollateral : Except (List Action) Unit :=
  if !isVinAssociatedWithPubkey env.signer view.coins view.unspecified dsee.vin dsee.pubkey then
    .error [.misbehaving 100 .mismatchedPubkey]
  else
    match acceptableInputs env view.coins (collateralTransaction env dsee.vin) with
    | .error (.reject reject) =>
      .error (if reject.nDoS > 0 then [.misbehaving reject.nDoS .unacceptableInputs] else [])
    | .error _ => .error []
    | .ok _ =>
      if getInputAge view.coins dsee.vin < masternodeMinConfirmations then
        .error [.misbehaving 20 .immatureInput]
      else
        match view.confirmedAt dsee.vin.prevout.hash with
        | some time => if time > dsee.sigTime then .error [] else .ok ()
        | none => .ok ()

/-- A donation to a script is not supported, and dropped. -/
def Dsee.normalise : Dsee :=
  if isPayToScriptHash dsee.donationAddress then { dsee with donationAddress := [], donationPercentage := 0 }
  else dsee

/-- The entry an announcement makes. -/
def Dsee.masternode : CMasternode where
  vin := dsee.vin
  addr := dsee.addr
  pubkey := dsee.pubkey
  pubkey2 := dsee.pubkey2
  sig := dsee.vchSig
  activeState := .enabled
  sigTime := dsee.sigTime
  lastDseep := 0
  lastTimeSeen := 0
  unitTest := false
  protocolVersion := dsee.protocolVersion
  donationAddress := dsee.donationAddress
  donationPercentage := dsee.donationPercentage
  nVote := 0
  lastVote := 0
  nScanningErrorCount := 0
  nLastScanningErrorBlockHeight := 0

structure MasternodeMan where
  vMasternodes : List CMasternode
  mAskedUsForMasternodeList : AList fun _ : BitVec 128 => Int
  mWeAskedForMasternodeListEntry : AList fun _ : COutPoint => Int

def MasternodeMan.clear : MasternodeMan := ⟨[], ∅, ∅⟩

def CMasternode.isAt (prevout : COutPoint) (mn : CMasternode) : Bool :=
  mn.vin.prevout == prevout

variable (man : MasternodeMan) (vin : CTxIn)

def MasternodeMan.find : Option CMasternode :=
  man.vMasternodes.find? (CMasternode.isAt vin.prevout)

/-- The entry that `find` returns is changed in its place. -/
def MasternodeMan.replace (mn : CMasternode) : MasternodeMan :=
  { man with vMasternodes := man.vMasternodes.set (man.vMasternodes.findIdx (CMasternode.isAt vin.prevout)) mn }

def MasternodeMan.add (mn : CMasternode) : MasternodeMan :=
  if mn.isEnabled && (man.find mn.vin).isNone then { man with vMasternodes := man.vMasternodes ++ [mn] } else man

/-- The announcement is for this node, which lacks its input yet. -/
def ours : Bool :=
  view.fMasterNode && sameTxIn view.activeVin nullTxIn && dsee.pubkey2 == view.pubKeyMasternode

/-- An announcement of a masternode that is put on the list. -/
def newEntry (dsee : Dsee) : MasternodeMan × List Action :=
  let entry := dsee.normalise
  (man.add (entry.masternode.updateLastSeen view.getAdjustedTime entry.lastUpdated),
    [.addNewAddress dsee.addr] ++
      (if entry.pubkey2 = view.pubKeyMasternode ∧ entry.protocolVersion = protocolVersion then
        [.enableHotColdMasterNode entry.vin entry.addr] else []) ++
      (if entry.count = -1 ∧ (dsee.addr.isRFC1918 || dsee.addr.isLocal) = false then
        [.relayMasternodeEntry entry] else []))

def processDsee (dsee : Dsee) : MasternodeMan × List Action :=
  match checkDsee env view dsee with
  | .error actions => (man, actions)
  | .ok _ =>
    match if ours view dsee then none else man.find dsee.vin with
    | some pmn =>
      let (mn, actions) := updateEntry env view dsee pmn
      (man.replace dsee.vin mn, actions)
    | none =>
      match checkCollateral env view dsee with
      | .error actions => (man, actions)
      | .ok _ => newEntry view man dsee

variable (dseep : Dseep)

/-- The text a masternode signs for a ping. -/
def Dseep.strMessage (addr : CService) : List Char :=
  env.serviceToString addr ++ decimalText dseep.sigTime ++ (if dseep.stop then ['1'] else ['0'])

/-- A ping of a masternode the list has. -/
def pingEntry (pmn : CMasternode) : CMasternode × List Action :=
  if pmn.lastDseep < dseep.sigTime ∧
      verifyMessage env.signer pmn.pubkey2 dseep.vchSig (dseep.strMessage env pmn.addr) = true then
    let pinged := { pmn with lastDseep := dseep.sigTime }
    if pinged.updatedWithin view.getAdjustedTime masternodeMinDseepSeconds then (pinged, [])
    else if dseep.stop then (pinged.disable, [.relayMasternodeEntryPing dseep])
    else
      let checked := (pinged.updateLastSeen view.getAdjustedTime 0).check env view
      (checked, if checked.isEnabled then [.relayMasternodeEntryPing dseep] else [])
  else (pmn, [])

/-- A ping of an unknown masternode makes the node ask for it now and then. -/
def askForEntry : MasternodeMan × List Action :=
  match man.mWeAskedForMasternodeListEntry.lookup vin.prevout with
  | some t => if view.getTime < t then (man, []) else ask
  | none => ask
where
  ask : MasternodeMan × List Action :=
    ({ man with
        mWeAskedForMasternodeListEntry :=
          man.mWeAskedForMasternodeListEntry.insert vin.prevout (view.getTime + masternodeMinDseepSeconds) },
      [.askForEntry vin])

def processDseep : MasternodeMan × List Action :=
  if dseep.sigTime > view.getAdjustedTime + 60 * 60 ∨ dseep.sigTime ≤ view.getAdjustedTime - 60 * 60 then (man, [])
  else
    match (man.find dseep.vin).filter fun pmn => minPeerProtoVersion ≤ pmn.protocolVersion with
    | some pmn =>
      let (mn, actions) := pingEntry env view dseep pmn
      (man.replace dseep.vin mn, actions)
    | none => askForEntry view man dseep.vin

def processMvote (mvote : Mvote) : MasternodeMan × List Action :=
  match man.find mvote.vin with
  | some pmn =>
    if view.getAdjustedTime - pmn.lastVote > 60 * 60 ∧
        verifyMessage env.signer pmn.pubkey2 mvote.vchSig (txInToString mvote.vin ++ decimalText mvote.nVote) = true
    then
      (man.replace mvote.vin { pmn with nVote := mvote.nVote, lastVote := view.getAdjustedTime },
        [.relayVote mvote])
    else (man, [])
  | none => (man, [])

/-- The announcement by which an entry is served. -/
def CMasternode.entry (count current : Int) : Dsee where
  vin := mn.vin
  addr := mn.addr
  vchSig := mn.sig
  sigTime := mn.sigTime
  pubkey := mn.pubkey
  pubkey2 := mn.pubkey2
  count := count
  current := current
  lastUpdated := mn.lastTimeSeen
  protocolVersion := mn.protocolVersion
  donationAddress := mn.donationAddress
  donationPercentage := mn.donationPercentage

/-- The entries sent to a peer that asked for one, or for all with the null input. -/
def sendEntries (vin : CTxIn) (count : Int) : Int → List CMasternode → List Action
  | _, [] => []
  | i, mn :: rest =>
    if mn.addr.isRFC1918 || !mn.isEnabled then sendEntries vin count i rest
    else if sameTxIn vin nullTxIn then .sendEntry (mn.entry count i) :: sendEntries vin count (i + 1) rest
    else if sameTxIn vin mn.vin then [.sendEntry (mn.entry count i)]
    else sendEntries vin count (i + 1) rest

def processDseg (pfrom : CService) (vin : CTxIn) : MasternodeMan × List Action :=
  if sameTxIn vin nullTxIn && !pfrom.isRFC1918 then
    if (man.mAskedUsForMasternodeList.lookup pfrom.ip).any fun t => view.getTime < t then
      (man, [.misbehaving 34 .askedAgain])
    else
      ({ man with
          mAskedUsForMasternodeList :=
            man.mAskedUsForMasternodeList.insert pfrom.ip (view.getTime + masternodesDsegSeconds) },
        sendEntries vin man.vMasternodes.length 0 man.vMasternodes)
  else (man, sendEntries vin man.vMasternodes.length 0 man.vMasternodes)

def MasternodeMan.check : MasternodeMan :=
  { man with vMasternodes := man.vMasternodes.map (CMasternode.check env view) }

/-- What was asked for before now is forgotten. -/
def pruned {Key : Type} [DecidableEq Key] (time : Int) (asked : AList fun _ : Key => Int) : AList fun _ : Key => Int :=
  asked.keys.foldl (fun left key => if (asked.lookup key).any fun t => t < time then left.erase key else left) asked

def MasternodeMan.checkAndRemove : MasternodeMan where
  vMasternodes := (man.check env view).vMasternodes.filter fun mn =>
    mn.activeState != .remove && mn.activeState != .vinSpent
  mAskedUsForMasternodeList := pruned view.getTime man.mAskedUsForMasternodeList
  mWeAskedForMasternodeListEntry := pruned view.getTime man.mWeAskedForMasternodeListEntry

def MasternodeMan.remove : MasternodeMan :=
  { man with vMasternodes := man.vMasternodes.eraseP fun mn => sameTxIn mn.vin vin }

def MasternodeMan.applyScanningError (mnse : ScanningError) : MasternodeMan :=
  match man.find vin with
  | some pmn => man.replace vin (pmn.applyScanningError mnse)
  | none => man

/-- The masternode messages and the upkeep of the list. -/
inductive Event where
  | dsee (dsee : Dsee)
  | dseep (dseep : Dseep)
  | mvote (mvote : Mvote)
  | dseg (pfrom : CService) (vin : CTxIn)
  | scanningError (vin : CTxIn) (mnse : ScanningError)
  | check
  | checkAndRemove
  | remove (vin : CTxIn)
  | clear

/-- The messages of peers that concern masternodes. -/
def processMessage : Event → MasternodeMan × List Action
  | .dsee dsee => processDsee env view man dsee
  | .dseep dseep => processDseep env view man dseep
  | .mvote mvote => processMvote env view man mvote
  | .dseg pfrom vin => processDseg view man pfrom vin
  | _ => (man, [])

/-- A node ignores the messages in the initial download, or with the functions off. -/
def handle : Event → MasternodeMan × List Action
  | .scanningError vin mnse => (man.applyScanningError vin mnse, [])
  | .check => (man.check env view, [])
  | .checkAndRemove => (man.checkAndRemove env view, [])
  | .remove vin => (man.remove vin, [])
  | .clear => (.clear, [])
  | message =>
    if env.fProUserModeDarksendInstantX2 || view.isInitialBlockDownload then (man, [])
    else processMessage env view man message

end Straks.Election
