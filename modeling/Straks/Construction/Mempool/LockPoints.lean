import Straks.Construction.Chain.VersionBits
import Straks.Construction.Mempool.TxMempool

namespace Straks.Mempool

open VersionBits

def sequenceLocktimeDisableFlag : UInt32 := 0x80000000

def sequenceLocktimeTypeFlag : UInt32 := 0x400000

def sequenceLocktimeMask : UInt32 := 0xffff

def sequenceLocktimeGranularity : UInt32 := 9

def locktimeVerifySequence : UInt32 := 1

/-- The height of the coins of a transaction in the pool. -/
def mempoolHeight : Int := 0x7fffffff

/-- The last height and time at which a transaction is not final. -/
structure LockPair where
  nMinHeight : Int
  nMinTime : Int
  deriving DecidableEq, Repr

structure LockPoints where
  height : Int
  time : Int
  /-- The block and its ancestors; the empty list is null. -/
  maxInputBlock : IndexPointer
  deriving DecidableEq

/-- What the relative lock check reads: the active chain, the pool, and the coins' heights. -/
structure SequenceView where
  tip : IndexPointer
  inPool : Uint256 → Bool
  coinsTip : Uint256 → Option Int

namespace SequenceView

variable (view : SequenceView)

/-- The height of the next block. -/
def nextHeight : Int := (view.tip.head?.map fun block => block.nHeight + 1).getD 0

/-- `CCoinsViewMemPool::GetCoins`, of which only the height is read. -/
def getCoins (txid : Uint256) : Option Int :=
  if view.inPool txid then some mempoolHeight else view.coinsTip txid

/-- The height at which an input was confirmed; one of the pool confirms in the next block. -/
def prevHeight (txin : CTxIn) : Option Int :=
  (view.getCoins txin.prevout.hash).map fun nHeight => if nHeight = mempoolHeight then view.nextHeight else nHeight

end SequenceView

variable (txin : CTxIn)

def isLockDisabled : Bool := txin.nSequence &&& sequenceLocktimeDisableFlag ≠ 0

def isTimeLock : Bool := txin.nSequence &&& sequenceLocktimeTypeFlag ≠ 0

def lockValue : UInt32 := txin.nSequence &&& sequenceLocktimeMask

/-- The median time past of the block before the coin's. -/
def coinTime (tip : IndexPointer) (nCoinHeight : Int) : Int :=
  getMedianTimePast (getAncestor tip (max (nCoinHeight - 1) 0))

/-- One turn of the loop over the inputs. -/
def lockInput (tip : IndexPointer) (pair : LockPair) (input : CTxIn × Int) : LockPair :=
  if isLockDisabled input.1 then pair
  else if isTimeLock input.1 then
    let nLockTime : Int := (lockValue input.1 <<< sequenceLocktimeGranularity).toNat
    { pair with nMinTime := max pair.nMinTime (coinTime tip input.2 + nLockTime - 1) }
  else
    let nLockHeight : Int := (lockValue input.1).toNat
    { pair with nMinHeight := max pair.nMinHeight (input.2 + nLockHeight - 1) }

def enforcesBIP68 (tx : CTransaction) (flags : UInt32) : Bool :=
  decide (tx.nVersion.toUInt32 ≥ 2) && decide (flags &&& locktimeVerifySequence ≠ 0)

/-- The locks of a transaction, and the heights, zero where they do not matter. -/
def calculateSequenceLocks (tx : CTransaction) (flags : UInt32) (prevHeights : List Int) (tip : IndexPointer) :
    LockPair × List Int :=
  if enforcesBIP68 tx flags then
    ((tx.vin.zip prevHeights).foldl (lockInput tip) ⟨-1, -1⟩,
      List.zipWith (fun txin height => if isLockDisabled txin then 0 else height) tx.vin prevHeights)
  else (⟨-1, -1⟩, prevHeights)

variable (view : SequenceView)

/-- The locks allow the next block. -/
def evaluateSequenceLocks (lockPair : LockPair) : Bool :=
  !(decide (lockPair.nMinHeight ≥ view.nextHeight) || decide (lockPair.nMinTime ≥ getMedianTimePast view.tip))

/-- The height of the last block with a locked chain input. -/
def maxInputHeight (prevHeights : List Int) : Int :=
  prevHeights.foldl (fun highest height => if height ≠ view.nextHeight then max highest height else highest) 0

/-- `CChain::Contains`. -/
def chainContains (tip pindex : IndexPointer) : Bool :=
  pindex.head?.any fun block => decide (getAncestor tip block.nHeight = pindex)

def testLockPointValidity (lp : LockPoints) : Bool :=
  decide (lp.maxInputBlock = []) || chainContains view.tip lp.maxInputBlock

/-- The verdict, and the lock points as the call leaves them. -/
def checkSequenceLocks (tx : CTransaction) (flags : UInt32) (lp : LockPoints)
    (useExistingLockPoints : Bool) : Bool × LockPoints :=
  if useExistingLockPoints then (evaluateSequenceLocks view ⟨lp.height, lp.time⟩, lp)
  else match tx.vin.mapM view.prevHeight with
  -- a missing input is an error
  | none => (false, lp)
  | some prevHeights =>
    let locks := calculateSequenceLocks tx flags prevHeights view.tip
    (evaluateSequenceLocks view locks.1,
      ⟨locks.1.nMinHeight, locks.1.nMinTime, getAncestor view.tip (maxInputHeight view locks.2)⟩)

open Chain Coins VersionBits

/-- What entries keep besides their totals, by hash. -/
structure EntryFacts where
  lockPoints : Uint256 → LockPoints
  spendsCoinbase : Uint256 → Bool

/-- The chain and the coins after a reorganisation. -/
structure ReorgView where
  tip : IndexPointer
  coins : Uint256 → Option CCoins
  adjustedTime : Int
  nCheckFrequency : Nat

def locktimeMedianTimePast : UInt32 := 2

namespace ReorgView

variable (env : PoolEnv) (view : ReorgView) (flags : UInt32) (pool : CTxMemPool) (facts : EntryFacts)

def sequenceView : SequenceView := ⟨view.tip, pool.exists, fun txid => (view.coins txid).map CCoins.nHeight⟩

def nextHeight : Int := (view.sequenceView pool).nextHeight

/-- The flags are an `int`, and negative ones count as none. -/
def checkFinalTx (tx : CTransaction) : Bool :=
  let flags := if flags < 0x80000000 then flags else 0
  isFinalTx tx (view.nextHeight pool)
    (if flags &&& locktimeMedianTimePast ≠ 0 then getMedianTimePast view.tip else view.adjustedTime)

/-- The first input from outside the pool with a missing coin or young coinbase. -/
def badInput (tx : CTransaction) : Option CTxIn :=
  tx.vin.find? fun txin => !pool.exists txin.prevout.hash && (view.coins txin.prevout.hash).all fun coins =>
    coins.fCoinBase && decide (view.nextHeight pool - coins.nHeight < coinbaseMaturity)

/-- The verdict on an entry's relative locks and its lock points afterwards. -/
def checkLocks (mayUse : LockPoints → Bool) (tx : CTransaction) : Bool × LockPoints :=
  let lp := facts.lockPoints (env.hashes.getHash tx)
  checkSequenceLocks (view.sequenceView pool) tx flags lp (mayUse lp)

/-- The tests of one entry, with its lock points where usable. -/
def noLongerValid (mayUse : LockPoints → Bool) (entry : CTxMemPoolEntry) : Bool :=
  if !view.checkFinalTx flags pool entry.tx || !(view.checkLocks env flags pool facts mayUse entry.tx).1 then true
  else facts.spendsCoinbase (env.hashes.getHash entry.tx) && (view.badInput pool entry.tx).isSome

/-- The lock points are used if their block is still active. -/
def validLP : LockPoints → Bool := testLockPointValidity (view.sequenceView pool)

/-- With consistency checks the coins asked for must be there. -/
def missesCoin (entry : CTxMemPoolEntry) : Bool :=
  view.checkFinalTx flags pool entry.tx && (view.checkLocks env flags pool facts (view.validLP pool) entry.tx).1 &&
    facts.spendsCoinbase (env.hashes.getHash entry.tx) &&
    (view.badInput pool entry.tx).any fun txin => (view.coins txin.prevout.hash).isNone

/-- `removeForReorg` for the next height, with the lock points after. -/
def removeForReorg : Except MempoolError (CTxMemPool × EntryFacts) :=
  if view.nCheckFrequency ≠ 0 ∧ pool.mapTx.keys.any fun hash =>
      (pool.mapTx.lookup hash).any (view.missesCoin env flags pool facts) then .error .assertion
  else do
    let later ← Mempool.removeForReorg env pool (view.noLongerValid env flags pool facts (view.validLP pool))
    let lockPoints := fun hash => (pool.mapTx.lookup hash).elim (facts.lockPoints hash) fun entry =>
      (view.checkLocks env flags pool facts (view.validLP pool) entry.tx).2
    return (later, { facts with lockPoints })

end ReorgView

end Straks.Mempool
