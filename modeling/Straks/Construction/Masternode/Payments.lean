import Straks.Construction.Script.Text
import Straks.Construction.SignHelper
import Straks.Library.Run
import Mathlib.Data.List.AList

namespace Straks.Masternode

/-- What the payment code reads of a masternode after `Check`. -/
structure CMasternode where
  vin : CTxIn
  isEnabled : Bool
  protocolVersion : Int
  /-- The first four bytes of the score at the tip. -/
  score : UInt32
  masternodeInputAge : Int
  lastTimeSeen : Int
  sigTime : Int
  donationPercentage : Int
  donationAddress : CScript
  /-- The script that pays to the key of the collateral. -/
  collateralScript : CScript
  deriving DecidableEq

variable (vMasternodes : List CMasternode)

def countEnabled : Nat := vMasternodes.countP (·.isEnabled)

def countMasternodesAboveProtocol (protocolVersion : Int) (vMasternodes : List CMasternode) : Nat :=
  vMasternodes.countP fun mn => !decide (mn.protocolVersion < protocolVersion) && mn.isEnabled

def find (vin : CTxIn) : Option CMasternode :=
  vMasternodes.find? fun mn => mn.vin.prevout == vin.prevout

/-- Of two masternodes with equal ages the earlier one stays. -/
def takeOlder (pOldestMasternode : Option CMasternode) (mn : CMasternode) : CMasternode :=
  match pOldestMasternode with
  | none => mn
  | some oldest => if oldest.masternodeInputAge < mn.masternodeInputAge then mn else oldest

/-- Keeps the first masternode of the highest age not skipped. -/
def findOldestNotInVec (vVins : List CTxIn) (nMinimumAge nMinimumActiveSeconds : Int) :
    List CMasternode → Option CMasternode → Option CMasternode
  | [], pOldestMasternode => pOldestMasternode
  | mn :: rest, pOldestMasternode =>
    findOldestNotInVec vVins nMinimumAge nMinimumActiveSeconds rest <|
      if ¬ mn.isEnabled then pOldestMasternode
      else if mn.masternodeInputAge < nMinimumAge ∨ mn.lastTimeSeen - mn.sigTime < nMinimumActiveSeconds then
        pOldestMasternode
      else if vVins.any fun vin => mn.vin.prevout == vin.prevout then pOldestMasternode
      else some (takeOlder pOldestMasternode mn)

/-- Finds the first masternode of the highest positive score. -/
def currentMasterNode (minProtocol : Int) : List CMasternode → UInt32 → Option CMasternode → Option CMasternode
  | [], _, winner => winner
  | mn :: rest, score, winner =>
    if mn.protocolVersion < minProtocol ∨ ¬ mn.isEnabled then currentMasterNode minProtocol rest score winner
    else if score < mn.score then currentMasterNode minProtocol rest mn.score (some mn)
    else currentMasterNode minProtocol rest score winner

/-- The protocol version is not restricted. -/
def getCurrentMasterNode : Option CMasternode :=
  currentMasterNode 0 vMasternodes 0 none

open DecimalText Script

structure CMasternodePaymentWinner where
  nBlockHeight : Int32
  vin : CTxIn
  payee : CScript
  vchSig : List UInt8
  score : UInt64
  deriving DecidableEq

/-- What the payment code reads from the rest of the node. -/
structure Env where
  signer : SignHelper
  lyra2re2Hash : List UInt8 → Uint256
  /-- The network identifier is the one of the main network. -/
  mainNetwork : Bool

/-- The distance of two hashes as 256-bit numbers. -/
def hashDistance (left right : Uint256) : Uint256 :=
  if right < left then left - right else right - left

variable (env : Env) (winner : CMasternodePaymentWinner)

/-- The hash of a vote covers its height and collateral, not its payee. -/
def CMasternodePaymentWinner.getHash : Uint256 :=
  hashDistance winner.vin.prevout.hash
    (env.lyra2re2Hash (littleEndian 4 winner.nBlockHeight.toBitVec.toNat))

def strMainPubKey : List Char :=
  "03a0d8182aa1594353051219402c79598109d80ec3ae0dd4fb7df46e8d962c7439".toList

def strTestPubKey : List Char :=
  "02f17b0c3e27065fcc400e5781d2995a8c4d9054d6aebd66149e3009c0c3f72242".toList

def Env.pubkey : CPubKey :=
  parseHex (if env.mainNetwork then strMainPubKey else strTestPubKey)

/-- The signed text of a vote: its input, height and payee. -/
def CMasternodePaymentWinner.strMessage : List Char :=
  txInToString winner.vin ++ decimalText winner.nBlockHeight.toInt ++ scriptToString winner.payee

def checkSignature : Bool :=
  verifyMessage env.signer env.pubkey winner.vchSig winner.strMessage

def calculateScore (blockHash : Uint256) (vin : CTxIn) : UInt64 :=
  let n2 := env.lyra2re2Hash (littleEndian 32 blockHash.toNat)
  let n3 := env.lyra2re2Hash (littleEndian 32 vin.prevout.hash.toNat)
  UInt64.ofNat (hashDistance n3 n2).toNat

structure Payments where
  vWinning : List CMasternodePaymentWinner
  mapSeenMasternodeVotes : AList fun _ : Uint256 => CMasternodePaymentWinner
  /-- The height of the active tip, if there is one. -/
  tip : Option Int

/-- A node starts without any winner, vote or tip. -/
def Payments.empty : Payments := ⟨[], ∅, none⟩

/-- `std::map::insert` keeps the value of a present key. -/
def insertVote (votes : AList fun _ : Uint256 => CMasternodePaymentWinner) (hash : Uint256)
    (winner : CMasternodePaymentWinner) : AList fun _ : Uint256 => CMasternodePaymentWinner :=
  if hash ∈ votes then votes else votes.insert hash winner

/-- The first winner of the height with a lower score is overwritten. -/
def overwriteWinner (winnerIn : CMasternodePaymentWinner) :
    List CMasternodePaymentWinner → Option (List CMasternodePaymentWinner)
  | [] => none
  | winner :: rest =>
    if winner.nBlockHeight = winnerIn.nBlockHeight ∧ winner.score < winnerIn.score then
      some ({ winner with
        score := winnerIn.score, vin := winnerIn.vin, payee := winnerIn.payee,
        vchSig := winnerIn.vchSig } :: rest)
    else (overwriteWinner winnerIn rest).map (winner :: ·)

/-- The score of a vote becomes that of its collateral and the zero block hash. -/
def scored (winnerIn : CMasternodePaymentWinner) : CMasternodePaymentWinner :=
  { winnerIn with score := calculateScore env 0 winnerIn.vin }

variable (state : Payments)

def addWinningMasternode (winner : CMasternodePaymentWinner) :
    Payments × Bool :=
  let winnerIn := scored env winner
  let seen := insertVote state.mapSeenMasternodeVotes (winnerIn.getHash env) winnerIn
  match overwriteWinner winnerIn state.vWinning with
  | some vWinning => ({ state with vWinning, mapSeenMasternodeVotes := seen }, true)
  | none =>
    if state.vWinning.any fun other => other.nBlockHeight == winnerIn.nBlockHeight then (state, false)
    else ({ state with vWinning := state.vWinning ++ [winnerIn], mapSeenMasternodeVotes := seen }, true)

def getBlockPayee (nBlockHeight : Int32) : Option CScript :=
  (state.vWinning.find? fun winner => winner.nBlockHeight == nBlockHeight).map (·.payee)

/-- What the payment code does towards the sender and all peers. -/
inductive PaymentsAction where
  | misbehaving (howmuch : Nat)
  | relay (hash : Uint256)
  deriving DecidableEq

/-- A vote counts from ten below the tip to twenty above it. -/
def outOfRange (height : Int) (winner : CMasternodePaymentWinner) : Bool :=
  winner.nBlockHeight.toInt < height - 10 || winner.nBlockHeight.toInt > height + 20

/-- The handler of `mnw`. Only votes more than one block above the tip have the signature tested. -/
def processVote (initialBlockDownload : Bool) (state : Payments)
    (winner : CMasternodePaymentWinner) : Payments × List PaymentsAction :=
  if initialBlockDownload then (state, [])
  else
    match state.tip with
    | none => (state, [])
    | some height =>
      if winner.getHash env ∈ state.mapSeenMasternodeVotes then (state, [])
      else if outOfRange height winner then (state, [])
      else if winner.vin.nSequence ≠ 0xffffffff then (state, [.misbehaving 100])
      else if height + 1 < winner.nBlockHeight.toInt ∧ checkSignature env winner = false then
        (state, [.misbehaving 100])
      else
        let seen := { state with
          mapSeenMasternodeVotes :=
            insertVote state.mapSeenMasternodeVotes (winner.getHash env) winner }
        let added := addWinningMasternode env seen winner
        (added.1, if added.2 then [.relay (winner.getHash env)] else [])

/-- The first winner that is too far below the tip is removed. -/
def cleanPaymentList (masternodes : Nat) (state : Payments) : Payments :=
  match state.tip with
  | none => state
  | some height =>
    { state with
      vWinning := state.vWinning.eraseP fun winner =>
        height - winner.nBlockHeight.toInt > Int.ofNat (max (masternodes * 2) 1000) }

/-- The events of a node without the master key, where `ProcessBlock` does nothing. -/
inductive PaymentsEvent where
  | vote (initialBlockDownload : Bool) (winner : CMasternodePaymentWinner)
  | tipChange (tip : Option Int)
  | clean (masternodes : Nat)

def paymentsStep : PaymentsEvent → Payments
  | .vote initialBlockDownload winner => (processVote env initialBlockDownload state winner).1
  | .tipChange tip => { state with tip }
  | .clean masternodes => cleanPaymentList masternodes state

def paymentsRun (events : List PaymentsEvent) : Payments :=
  Run.run (paymentsStep env) .empty events

/-- The inputs of the last winners, newest first, one more than the minimum age. -/
def lastPayments (nMinimumAge : Nat) : List CMasternodePaymentWinner → List CTxIn → List CTxIn
  | [], vecLastPayments => vecLastPayments
  | winner :: older, vecLastPayments =>
    if vecLastPayments.length > nMinimumAge then vecLastPayments
    else lastPayments nMinimumAge older (vecLastPayments ++ [winner.vin])

/-- The first input that belongs to an enabled masternode. -/
def findEnabled (vMasternodes : List CMasternode) : List CTxIn → Option CMasternode
  | [] => none
  | vinLP :: rest =>
    match find vMasternodes vinLP with
    | none => findEnabled vMasternodes rest
    | some pmn => if pmn.isEnabled then some pmn else findEnabled vMasternodes rest

/-- What one call reads besides the winners. -/
structure ProcessBlockView where
  nBlockHeight : Int32
  vMasternodes : List CMasternode
  /-- The hash of the block ten blocks lower, if it is known. -/
  blockHash : Option Uint256
  /-- The upper half of the number only two bytes are copied to. -/
  uninitialized : UInt16

def newWinner (nBlockHeight : Int32) (nHash : Nat) (pmn : CMasternode) : CMasternodePaymentWinner where
  nBlockHeight := nBlockHeight
  vin := pmn.vin
  payee :=
    if 0 < pmn.donationPercentage ∧ Int.ofNat (nHash % 100) ≤ pmn.donationPercentage then pmn.donationAddress
    else pmn.collateralScript
  vchSig := []
  score := 0

/-- The masternode paid next: the oldest without a recent payment, or the one paid longest ago. -/
def nextPaid (vMasternodes : List CMasternode) (vWinning : List CMasternodePaymentWinner) : Option CMasternode :=
  let nMinimumAge := countEnabled vMasternodes
  let vecLastPayments := lastPayments nMinimumAge vWinning.reverse []
  match findOldestNotInVec vecLastPayments nMinimumAge 0 vMasternodes none with
  | some pmn => some pmn
  | none => if 0 < nMinimumAge then findEnabled vMasternodes vecLastPayments.reverse else none

/-- A node that holds the master key. -/
structure PaymentsMaster where
  payments : Payments
  enabled : Bool
  nLastBlockHeight : Int32

/-- The signature of a text under the master key, if made and verified. -/
abbrev MasterSigner := List Char → Option (List UInt8)

def sign (signer : MasterSigner) (winner : CMasternodePaymentWinner) : Option CMasternodePaymentWinner :=
  (signer winner.strMessage).map fun vchSig => { winner with vchSig }

def processBlock (env : Env) (signer : MasterSigner) (master : PaymentsMaster) (view : ProcessBlockView) :
    PaymentsMaster × Bool :=
  if ¬ master.enabled then (master, false)
  else if view.nBlockHeight ≤ master.nLastBlockHeight then (master, false)
  else
    match view.blockHash with
    | none => (master, false)
    | some hash =>
      let nHash := hash.toNat % 65536 + 65536 * view.uninitialized.toNat
      match nextPaid view.vMasternodes master.payments.vWinning with
      | none => (master, false)
      | some pmn =>
        -- a winner of height zero counts as none
        if view.nBlockHeight = 0 then (master, false)
        else
        match sign signer (newWinner view.nBlockHeight nHash pmn) with
        | none => (master, false)
        | some winner =>
          let added := addWinningMasternode env master.payments winner
          if added.2 then
            ({ master with payments := added.1, nLastBlockHeight := view.nBlockHeight }, true)
          else ({ master with payments := added.1 }, false)

end Straks.Masternode
