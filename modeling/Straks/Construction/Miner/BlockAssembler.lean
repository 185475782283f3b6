import Straks.Construction.Mempool.TxMempool
import Straks.Library.Loop

namespace Straks.Miner

open Chain Mempool Loop

/-- The smallest fee of a rate; the unsigned size must fit a signed number. -/
def getFee (nSatoshisPerK : CAmount) (nBytes : Int) : Except MempoolError CAmount :=
  if nBytes < 0 then .error .assertion
  else
    let nFee := (nSatoshisPerK * nBytes).tdiv 1000
    let least : CAmount := if nSatoshisPerK > 0 then 1 else if nSatoshisPerK < 0 then -1 else nFee
    .ok (if nFee = 0 ∧ nBytes ≠ 0 then least else nFee)

/-- The sums of a transaction and its ancestors not in the block. -/
structure CTxMemPoolModifiedEntry where
  nSizeWithAncestors : Int
  nModFeesWithAncestors : CAmount
  nSigOpCostWithAncestors : Int
  deriving DecidableEq

/-- The sums over all ancestors. -/
def CTxMemPoolModifiedEntry.new (entry : CTxMemPoolEntry) : CTxMemPoolModifiedEntry :=
  ⟨entry.nSizeWithAncestors, entry.nModFeesWithAncestors, entry.nSigOpCostWithAncestors⟩

/-- An included ancestor leaves the sums taken from the pool. -/
def CTxMemPoolModifiedEntry.exclude (env : PoolEnv) (it : CTxMemPoolEntry) (modEntry : CTxMemPoolModifiedEntry) :
    CTxMemPoolModifiedEntry where
  nSizeWithAncestors := modEntry.nSizeWithAncestors - it.getTxSize env
  nModFeesWithAncestors := modEntry.nModFeesWithAncestors - it.getModifiedFee
  nSigOpCostWithAncestors := modEntry.nSigOpCostWithAncestors - it.sigOpCost

/-- An included ancestor leaves earlier sums, with the fee without its delta. -/
def updateForParentInclusion (env : PoolEnv) (it : CTxMemPoolEntry) (e : CTxMemPoolModifiedEntry) :
    CTxMemPoolModifiedEntry where
  nModFeesWithAncestors := e.nModFeesWithAncestors - it.nFee
  nSizeWithAncestors := e.nSizeWithAncestors - it.getTxSize env
  nSigOpCostWithAncestors := e.nSigOpCostWithAncestors - it.sigOpCost

abbrev ModifiedSet := AList fun _ : Uint256 => CTxMemPoolModifiedEntry

/-- The orders of the pool, the modified entries and the priorities. -/
structure ScoreOrder where
  byAncestorScore : CTxMemPool → List Uint256
  complete : ∀ pool, (byAncestorScore pool).Perm pool.mapTx.keys
  /-- The modified entry of the best score. -/
  best : ModifiedSet → Option Uint256
  best_mem : ∀ modified hash, best modified = some hash → hash ∈ modified
  best_none : ∀ modified, best modified = none → modified.keys = []
  compareModifiedEntry : Uint256 × CTxMemPoolModifiedEntry → Uint256 × CTxMemPoolModifiedEntry → Bool
  /-- The front of the heap of priorities. -/
  front : List Uint256 → Option Uint256
  front_mem : ∀ heap hash, front heap = some hash → hash ∈ heap
  front_none : ∀ heap, front heap = none → heap = []
  /-- The priority of the transaction allows it to be free. -/
  allowFree : Uint256 → Bool

/-- What stays fixed while a block is assembled. -/
structure AssemblerConfig where
  fIncludeWitness : Bool
  fWitnessSeasoned : Bool
  nBlockMaxWeight : Nat
  nBlockMaxSize : Nat
  fNeedSizeAccounting : Bool
  blockMinFeeRate : CAmount
  nBlockPrioritySize : Nat
  nHeight : Int
  nLockTimeCutoff : Int

/-- The block so far, without its coinbase. -/
structure BlockAssembler where
  inBlock : SetEntries
  vtx : List Uint256
  nBlockSize : Nat
  nBlockWeight : Nat
  nBlockSigOpsCost : Nat
  nFees : CAmount
  lastFewTxs : Nat
  blockFinished : Bool

/-- Some of the limits is reserved for the coinbase. -/
def BlockAssembler.resetBlock : BlockAssembler where
  inBlock := .empty
  vtx := []
  nBlockSize := 1000
  nBlockWeight := 4000
  nBlockSigOpsCost := 400
  nFees := 0
  lastFewTxs := 0
  blockFinished := false

def BlockAssembler.add (fNeedSizeAccounting : Bool) (state : BlockAssembler) (iter : Uint256) (entry : CTxMemPoolEntry) :
    BlockAssembler :=
  { state with
    vtx := state.vtx ++ [iter]
    nBlockSize := if fNeedSizeAccounting then state.nBlockSize + totalSize entry.tx else state.nBlockSize
    nBlockWeight := state.nBlockWeight + getTransactionWeight entry.tx
    nBlockSigOpsCost := state.nBlockSigOpsCost + entry.sigOpCost
    nFees := state.nFees + entry.nFee
    inBlock := state.inBlock.insert hashBefore iter }

section Assembler

variable (env : PoolEnv) (pool : CTxMemPool) (order : ScoreOrder) (config : AssemblerConfig)

variable (state : BlockAssembler)

def isStillDependent (iter : Uint256) : Except MempoolError Bool := do
  let parents ← pool.getMemPoolParents iter
  return parents.elements.any fun parent => !state.inBlock.contains parent

def onlyUnconfirmed (testSet : SetEntries) : SetEntries :=
  ⟨testSet.elements.filter fun iit => !state.inBlock.contains iit, testSet.nodup.filter _⟩

def testPackage (packageSize packageSigOpsCost : Int) : Bool :=
  if (state.nBlockWeight : Int) + witnessScaleFactor * packageSize ≥ config.nBlockMaxWeight then false
  else if (state.nBlockSigOpsCost : Int) + packageSigOpsCost ≥ maxBlockSigOpsCost config.fWitnessSeasoned then false
  else true

/-- The checks of each transaction of a package; size counts only if accounted for. -/
def testPackageTransactions : Nat → List CTxMemPoolEntry → Bool
  | _, [] => true
  | nPotentialBlockSize, it :: rest =>
    if !isFinalTx it.tx config.nHeight config.nLockTimeCutoff then false
    else if !config.fIncludeWitness && hasWitness it.tx then false
    else if config.fNeedSizeAccounting then
      if nPotentialBlockSize + totalSize it.tx ≥ config.nBlockMaxSize then false
      else testPackageTransactions (nPotentialBlockSize + totalSize it.tx) rest
    else testPackageTransactions nPotentialBlockSize rest

/-- Whether a transaction fits, and what the attempt leaves behind. -/
def testForBlock (iter : CTxMemPoolEntry) : Bool × BlockAssembler :=
  if state.nBlockWeight + getTransactionWeight iter.tx ≥ config.nBlockMaxWeight then
    if state.nBlockWeight > config.nBlockMaxWeight - 400 ∨ state.lastFewTxs > 50 then
      (false, { state with blockFinished := true })
    else if state.nBlockWeight > config.nBlockMaxWeight - 4000 then
      (false, { state with lastFewTxs := state.lastFewTxs + 1 })
    else (false, state)
  else if state.nBlockSize + totalSize iter.tx ≥ config.nBlockMaxSize then
    if state.nBlockSize > config.nBlockMaxSize - 100 ∨ state.lastFewTxs > 50 then
      (false, { state with blockFinished := true })
    else if state.nBlockSize > config.nBlockMaxSize - 1000 then
      (false, { state with lastFewTxs := state.lastFewTxs + 1 })
    else (false, state)
  else if state.nBlockSigOpsCost + iter.sigOpCost ≥ maxBlockSigOpsCost config.fWitnessSeasoned then
    if state.nBlockSigOpsCost > maxBlockSigOpsCost config.fWitnessSeasoned - 8 then
      (false, { state with blockFinished := true })
    else (false, state)
  else (isFinalTx iter.tx config.nHeight config.nLockTimeCutoff, state)

def addToBlock (fNeedSizeAccounting : Bool) (state : BlockAssembler) (iter : Uint256) :
    Except MempoolError BlockAssembler := do
  let entry ← pool.dereference iter
  return state.add fNeedSizeAccounting iter entry

structure PriorityState where
  assembler : BlockAssembler
  vecPriority : List Uint256
  waitPriMap : SetEntries

/-- The children that were waiting go back to the heap. -/
def wakeChildren (children : List Uint256) (state : PriorityState) : PriorityState :=
  children.foldl (fun state child =>
    if state.waitPriMap.contains child then
      { state with vecPriority := state.vecPriority ++ [child], waitPriMap := state.waitPriMap.erase child }
    else state) state

/-- One turn of the loop over the transactions by priority. -/
def priorityTurn (state : PriorityState) : Except MempoolError (Turn PriorityState) :=
  if state.assembler.blockFinished then .ok (.stop state)
  else
    match order.front state.vecPriority with
    | none => .ok (.stop state)
    | some iter => do
      let state := { state with vecPriority := state.vecPriority.erase iter }
      if state.assembler.inBlock.contains iter then .error .assertion
      else
        let entry ← pool.dereference iter
        if !config.fIncludeWitness && hasWitness entry.tx then return .again state
        else if ← isStillDependent pool state.assembler iter then
          return .again { state with waitPriMap := state.waitPriMap.insert hashBefore iter }
        else
          let (fits, assembler) := testForBlock config state.assembler entry
          if fits then
            let assembler ← addToBlock pool true assembler iter
            if assembler.nBlockSize ≥ config.nBlockPrioritySize || !order.allowFree iter then
              return .stop { state with assembler }
            else
              let children ← pool.getMemPoolChildren iter
              return .again (wakeChildren children.elements { state with assembler })
          else return .again { state with assembler }

variable (assembler : BlockAssembler)

/-- A transaction returns to the heap only after another was included. -/
def addPriorityTxs : Except MempoolError BlockAssembler :=
  if min config.nBlockMaxSize config.nBlockPrioritySize = 0 then .ok assembler
  else
    let n := pool.mapTx.keys.length
    PriorityState.assembler <$> iterate
      (priorityTurn pool order { config with nBlockPrioritySize := min config.nBlockMaxSize config.nBlockPrioritySize })
      .diverged ((n + 1) * (n + 1) + 1) ⟨assembler, pool.mapTx.keys, .empty⟩

/-- A descendant of an included transaction enters the modified set or is updated. -/
def updateDescendant (it : CTxMemPoolEntry) (modified : ModifiedSet) (desc : Uint256) :
    Except MempoolError ModifiedSet :=
  match modified.lookup desc with
  | none => do
    let entry ← pool.dereference desc
    return modified.insert desc ((CTxMemPoolModifiedEntry.new entry).exclude env it)
  | some e => .ok (modified.insert desc (updateForParentInclusion env it e))

/-- The descendants of an included transaction not included with it. -/
def updateDescendants (alreadyAdded : SetEntries) (modified : ModifiedSet) (it : Uint256) :
    Except MempoolError ModifiedSet := do
  let descendants ← pool.calculateDescendants it .empty
  let entry ← pool.dereference it
  (descendants.elements.filter fun desc => !alreadyAdded.contains desc).foldlM (updateDescendant env pool entry) modified

def updatePackagesForAdded (alreadyAdded : SetEntries) (modified : ModifiedSet) : Except MempoolError ModifiedSet :=
  alreadyAdded.elements.foldlM (updateDescendants env pool alreadyAdded) modified

def ancestorCount (it : Uint256) : Int :=
  ((pool.mapTx.lookup it).map CTxMemPoolEntry.nCountWithAncestors).getD 0

/-- Fewer ancestors come first, then the lower hash. -/
def compareByAncestorCount (a b : Uint256) : Bool :=
  if ancestorCount pool a ≠ ancestorCount pool b then ancestorCount pool a < ancestorCount pool b else hashBefore a b

def sortForBlock (package : SetEntries) : List Uint256 :=
  package.elements.insertionSort fun a b => compareByAncestorCount pool b a = false

structure PackageState where
  assembler : BlockAssembler
  mapModifiedTx : ModifiedSet
  failedTx : SetEntries
  /-- What is left of the pool in ancestor score order. -/
  mi : List Uint256
  nConsecutiveFailed : Nat

variable (state : PackageState)

def skipMapTxEntry (it : Uint256) : Bool :=
  (state.mapModifiedTx.lookup it).isSome || state.assembler.inBlock.contains it || state.failedTx.contains it

/-- A package fails: a modified entry is erased and remembered. -/
def PackageState.fail (iter : Uint256) (fUsingModified : Bool) : PackageState :=
  if fUsingModified then
    { state with
      mapModifiedTx := state.mapModifiedTx.erase iter
      failedTx := state.failedTx.insert hashBefore iter }
  else state

/-- A sorted package enters the block and leaves the modified set. -/
def addPackage (sortedEntries : List Uint256) : Except MempoolError PackageState :=
  sortedEntries.foldlM (fun state it => do
    let assembler ← addToBlock pool config.fNeedSizeAccounting state.assembler it
    return { state with assembler, mapModifiedTx := state.mapModifiedTx.erase it }) state

/-- What comes out of the tests of a package. -/
inductive Verdict where
  /-- Everything else has a lower fee rate. -/
  | lowFee
  | full
  | unfit
  | accepted (ancestors : SetEntries)
  deriving DecidableEq

/-- The tests of a transaction's package, with its known sums. -/
def examinePackage (iter : Uint256) (package : CTxMemPoolModifiedEntry) :
    Except MempoolError Verdict := do
  let minFee ← getFee config.blockMinFeeRate package.nSizeWithAncestors
  if package.nModFeesWithAncestors < minFee then return .lowFee
  else if !testPackage config assembler package.nSizeWithAncestors package.nSigOpCostWithAncestors then return .full
  else
    let ancestors ← ancestorsInPool env pool iter
    let ancestors := (onlyUnconfirmed assembler ancestors).insert hashBefore iter
    let entries ← ancestors.elements.mapM pool.dereference
    if !testPackageTransactions config assembler.nBlockSize entries then return .unfit
    else return .accepted ancestors

/-- A package that passes its tests goes into the block. -/
def tryPackage (iter : Uint256) (fUsingModified : Bool) (package : CTxMemPoolModifiedEntry) :
    Except MempoolError (Turn PackageState) := do
  match ← examinePackage env pool config state.assembler iter package with
  | .lowFee => return .stop state
  | .full =>
    let state := { state.fail iter fUsingModified with nConsecutiveFailed := state.nConsecutiveFailed + 1 }
    if state.nConsecutiveFailed > 1000 ∧ state.assembler.nBlockWeight > config.nBlockMaxWeight - 4000 then
      return .stop state
    else return .again state
  | .unfit => return .again (state.fail iter fUsingModified)
  | .accepted ancestors =>
    let state ← addPackage pool config { state with nConsecutiveFailed := 0 } (sortForBlock pool ancestors)
    let mapModifiedTx ← updatePackagesForAdded env pool ancestors state.mapModifiedTx
    return .again { state with mapModifiedTx }

/-- The next transaction, from the modified set or the pool. -/
inductive Choice where
  | none
  | skip
  | fromModified (iter : Uint256)
  | fromMapTx (iter : Uint256)

/-- The pool's next transaction is compared with the best modified one. -/
def choose : Except MempoolError Choice :=
  match state.mi, order.best state.mapModifiedTx with
  | [], .none => .ok .none
  | [], some iter => .ok (.fromModified iter)
  | it :: _, best =>
    if skipMapTxEntry state it then .ok .skip
    else
      match best with
      | .none => .ok (.fromMapTx it)
      | some iter => do
        let entry ← pool.dereference it
        match state.mapModifiedTx.lookup iter with
        | .none => .error .invalidReference
        | some modit =>
          if order.compareModifiedEntry (iter, modit) (it, .new entry) then return .fromModified iter
          else return .fromMapTx it

/-- One turn of the loop over the packages. -/
def packageTurn : Except MempoolError (Turn PackageState) := do
  match ← choose pool order state with
  | .none => return .stop state
  | .skip => return .again { state with mi := state.mi.tail }
  | .fromModified iter =>
    if state.assembler.inBlock.contains iter then .error .assertion
    else
      match state.mapModifiedTx.lookup iter with
      | .none => .error .invalidReference
      | some modit => tryPackage env pool config state iter true modit
  | .fromMapTx iter =>
    if state.assembler.inBlock.contains iter then .error .assertion
    else
      let entry ← pool.dereference iter
      tryPackage env pool config { state with mi := state.mi.tail } iter false (.new entry)

def startPackages : Except MempoolError PackageState := do
  let mapModifiedTx ← updatePackagesForAdded env pool assembler.inBlock ∅
  return ⟨assembler, mapModifiedTx, .empty, order.byAncestorScore pool, 0⟩

def addPackageTxs : Except MempoolError BlockAssembler := do
  let n := pool.mapTx.keys.length
  let state ← startPackages env pool order assembler
  let last ← iterate (packageTurn env pool order config) .diverged ((n + 1) * (2 * n + 1) + 1) state
  return last.assembler

/-- The transactions of the block: by priority, then by package. -/
def selectTransactions : Except MempoolError BlockAssembler := do
  let assembler ← addPriorityTxs pool order config .resetBlock
  addPackageTxs env pool order config assembler

end Assembler

end Straks.Miner
