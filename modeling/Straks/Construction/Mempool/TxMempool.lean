import Straks.Construction.Chain.WitnessRules
import Straks.Library.Worklist

namespace Straks.Mempool
open Chain Worklist OrderedSet

/-- The ways in which the pool stops the program. -/
inductive MempoolError where
  | assertion
  /-- An iterator or an index refers to nothing. -/
  | invalidReference
  /-- A loop takes more turns than the pool has entries. -/
  | diverged
  deriving DecidableEq, Repr

/-- The hash functions and the policy read by the pool. -/
structure PoolEnv where
  hashes : BlockHashes
  nBytesPerSigOp : Nat

def getTransactionWeight (tx : CTransaction) : Nat := baseSize tx * (witnessScaleFactor - 1) + totalSize tx

def getVirtualTransactionSize (nBytesPerSigOp nWeight nSigOpCost : Nat) : Nat :=
  (max nWeight (nSigOpCost * nBytesPerSigOp) + witnessScaleFactor - 1) / witnessScaleFactor

/-- A transaction in the pool with the totals over its relatives. -/
structure CTxMemPoolEntry where
  tx : CTransaction
  nFee : CAmount
  nTime : Int
  sigOpCost : Nat
  feeDelta : CAmount
  nCountWithDescendants : Int
  nSizeWithDescendants : Int
  nModFeesWithDescendants : CAmount
  nCountWithAncestors : Int
  nSizeWithAncestors : Int
  nModFeesWithAncestors : CAmount
  nSigOpCostWithAncestors : Int
  deriving DecidableEq

namespace CTxMemPoolEntry

def getTxSize (env : PoolEnv) (entry : CTxMemPoolEntry) : Nat :=
  getVirtualTransactionSize env.nBytesPerSigOp (getTransactionWeight entry.tx) entry.sigOpCost

def getModifiedFee (entry : CTxMemPoolEntry) : CAmount := entry.nFee + entry.feeDelta

/-- The entry of a transaction that has no relatives yet. -/
def new (env : PoolEnv) (tx : CTransaction) (nFee : CAmount) (nTime : Int) (sigOpCost : Nat) : CTxMemPoolEntry :=
  let size := getVirtualTransactionSize env.nBytesPerSigOp (getTransactionWeight tx) sigOpCost
  { tx, nFee, nTime, sigOpCost
    feeDelta := 0
    nCountWithDescendants := 1
    nSizeWithDescendants := size
    nModFeesWithDescendants := nFee
    nCountWithAncestors := 1
    nSizeWithAncestors := size
    nModFeesWithAncestors := nFee
    nSigOpCostWithAncestors := sigOpCost }

def updateFeeDelta (newFeeDelta : CAmount) (entry : CTxMemPoolEntry) : CTxMemPoolEntry :=
  { entry with
    nModFeesWithDescendants := entry.nModFeesWithDescendants + (newFeeDelta - entry.feeDelta)
    nModFeesWithAncestors := entry.nModFeesWithAncestors + (newFeeDelta - entry.feeDelta)
    feeDelta := newFeeDelta }

def updateDescendantState (modifySize : Int) (modifyFee : CAmount) (modifyCount : Int) (entry : CTxMemPoolEntry) :
    Except MempoolError CTxMemPoolEntry :=
  if entry.nSizeWithDescendants + modifySize ≤ 0 then .error .assertion
  else if entry.nCountWithDescendants + modifyCount ≤ 0 then .error .assertion
  else .ok { entry with
    nSizeWithDescendants := entry.nSizeWithDescendants + modifySize
    nModFeesWithDescendants := entry.nModFeesWithDescendants + modifyFee
    nCountWithDescendants := entry.nCountWithDescendants + modifyCount }

/-- The conversion to a 32-bit `int`. -/
def toInt32 (value : Int) : Int := value.bmod (2 ^ 32)

/-- The change of signature operations is passed as an `int`. -/
def updateAncestorState (modifySize : Int) (modifyFee : CAmount) (modifyCount modifySigOpsCost : Int)
    (entry : CTxMemPoolEntry) : Except MempoolError CTxMemPoolEntry :=
  if entry.nSizeWithAncestors + modifySize ≤ 0 then .error .assertion
  else if entry.nCountWithAncestors + modifyCount ≤ 0 then .error .assertion
  else if toInt32 (entry.nSigOpCostWithAncestors + toInt32 modifySigOpsCost) < 0 then .error .assertion
  else .ok { entry with
    nSizeWithAncestors := entry.nSizeWithAncestors + modifySize
    nModFeesWithAncestors := entry.nModFeesWithAncestors + modifyFee
    nCountWithAncestors := entry.nCountWithAncestors + modifyCount
    nSigOpCostWithAncestors := entry.nSigOpCostWithAncestors + toInt32 modifySigOpsCost }

end CTxMemPoolEntry

/-- Hashes are compared bytewise from the lowest address on. -/
def hashBefore (first second : Uint256) : Bool :=
  decide (littleEndian 32 first.toNat < littleEndian 32 second.toNat)

/-- An iterator is the hash of its entry, a set of them an ordered set of hashes. -/
abbrev SetEntries := OrderedSet Uint256

structure TxLinks where
  parents : SetEntries
  children : SetEntries
  deriving DecidableEq

def TxLinks.empty : TxLinks := ⟨.empty, .empty⟩

/-- The pool. The index in `vTxHashes` is kept beside the entries. -/
structure CTxMemPool where
  mapTx : AList fun _ : Uint256 => CTxMemPoolEntry
  mapLinks : AList fun _ : Uint256 => TxLinks
  mapNextTx : AList fun _ : COutPoint => CTransaction
  mapDeltas : AList fun _ : Uint256 => CAmount
  totalTxSize : Int
  /-- The witness hash of each entry with its reference. -/
  vTxHashes : List (Uint256 × Uint256)
  vTxHashesIdx : Uint256 → Nat

namespace CTxMemPool

def empty : CTxMemPool := ⟨∅, ∅, ∅, ∅, 0, [], fun _ => 0⟩

variable (pool : CTxMemPool)

def «exists» (hash : Uint256) : Bool := (pool.mapTx.lookup hash).isSome

def dereference (it : Uint256) : Except MempoolError CTxMemPoolEntry :=
  match pool.mapTx.lookup it with
  | some entry => .ok entry
  | none => .error .invalidReference

def modify (it : Uint256)
    (modifier : CTxMemPoolEntry → Except MempoolError CTxMemPoolEntry) : Except MempoolError CTxMemPool := do
  let entry ← pool.dereference it
  let modified ← modifier entry
  .ok { pool with mapTx := pool.mapTx.insert it modified }

variable (entry : Uint256)

def getLinks : Except MempoolError TxLinks :=
  match pool.mapLinks.lookup entry with
  | some links => .ok links
  | none => .error .assertion

def getMemPoolParents : Except MempoolError SetEntries :=
  TxLinks.parents <$> pool.getLinks entry

def getMemPoolChildren : Except MempoolError SetEntries :=
  TxLinks.children <$> pool.getLinks entry

def updateSet (set : SetEntries) (other : Uint256) (add : Bool) : SetEntries :=
  if add then set.insert hashBefore other else set.erase other

def modifyLinks (modifier : TxLinks → TxLinks) : CTxMemPool :=
  { pool with
    mapLinks := pool.mapLinks.insert entry (modifier ((pool.mapLinks.lookup entry).getD TxLinks.empty)) }

def updateChild (entry child : Uint256) (add : Bool) : CTxMemPool :=
  pool.modifyLinks entry fun links => { links with children := updateSet links.children child add }

def updateParent (entry parent : Uint256) (add : Bool) : CTxMemPool :=
  pool.modifyLinks entry fun links => { links with parents := updateSet links.parents parent add }

/-- An entry and all its descendants are added to the set. -/
def calculateDescendants (entryit : Uint256) (setDescendants : SetEntries) :
    Except MempoolError SetEntries :=
  let stage := if setDescendants.contains entryit then .empty else OrderedSet.empty.insert hashBefore entryit
  walk hashBefore pool.getMemPoolChildren .diverged pool.mapTx.keys.length stage setDescendants

def calculateAllDescendants (entries : List Uint256) : Except MempoolError SetEntries :=
  entries.foldlM (fun setDescendants entryit => pool.calculateDescendants entryit setDescendants) .empty

end CTxMemPool

/-- The four limits; an absent one is the largest number. -/
structure Limits where
  limitAncestorCount : Option Nat
  limitAncestorSize : Option Nat
  limitDescendantCount : Option Nat
  limitDescendantSize : Option Nat

def nNoLimit : Limits := ⟨none, none, none, none⟩

def exceeds (amount : Int) (limit : Option Nat) : Bool := limit.any fun limit => decide ((limit : Int) < amount)

/-- What the error text names, with the limit that was hit. -/
inductive LimitError where
  | tooManyUnconfirmedParents (limit : Option Nat)
  | exceedsDescendantSizeLimit (hash : Uint256) (limit : Option Nat)
  | tooManyDescendants (hash : Uint256) (limit : Option Nat)
  | exceedsAncestorSizeLimit (limit : Option Nat)
  | tooManyUnconfirmedAncestors (limit : Option Nat)
  deriving DecidableEq

section Ancestors

variable (env : PoolEnv) (pool : CTxMemPool) (limits : Limits)

/-- The parents in the pool are found by the inputs. -/
def searchForParents : List CTxIn → SetEntries → Except LimitError SetEntries
  | [], parentHashes => .ok parentHashes
  | txin :: rest, parentHashes =>
    if pool.exists txin.prevout.hash then
      let parentHashes := parentHashes.insert hashBefore txin.prevout.hash
      if exceeds (parentHashes.size + 1) limits.limitAncestorCount then
        .error (.tooManyUnconfirmedParents limits.limitAncestorCount)
      else searchForParents rest parentHashes
    else searchForParents rest parentHashes

/-- The limits an ancestor and the size so far have to keep. -/
def checkAncestor (stageit : Uint256) (ancestor : CTxMemPoolEntry) (entrySize : Nat)
    (totalSizeWithAncestors : Int) : Except LimitError Unit :=
  if exceeds (ancestor.nSizeWithDescendants + entrySize) limits.limitDescendantSize then
    .error (.exceedsDescendantSizeLimit stageit limits.limitDescendantSize)
  else if exceeds (ancestor.nCountWithDescendants + 1) limits.limitDescendantCount then
    .error (.tooManyDescendants stageit limits.limitDescendantCount)
  else if exceeds totalSizeWithAncestors limits.limitAncestorSize then
    .error (.exceedsAncestorSizeLimit limits.limitAncestorSize)
  else .ok ()

def stageParents (setAncestors : SetEntries) : List Uint256 → SetEntries → Except LimitError SetEntries
  | [], parentHashes => .ok parentHashes
  | phash :: rest, parentHashes =>
    let parentHashes := if setAncestors.contains phash then parentHashes else parentHashes.insert hashBefore phash
    if exceeds (parentHashes.size + setAncestors.size + 1) limits.limitAncestorCount then
      .error (.tooManyUnconfirmedAncestors limits.limitAncestorCount)
    else stageParents setAncestors rest parentHashes

/-- The outer error stops the program, the inner one is a limit hit. -/
def ancestorsLoop (entrySize : Nat) :
    Nat → SetEntries → SetEntries → Int → Except MempoolError (Except LimitError SetEntries)
  | fuel, parentHashes, setAncestors, totalSizeWithAncestors =>
    match parentHashes.elements with
    | [] => .ok (.ok setAncestors)
    | stageit :: _ =>
      match fuel with
      | 0 => .error .diverged
      | fuel + 1 => do
        let setAncestors := setAncestors.insert hashBefore stageit
        let parentHashes := parentHashes.erase stageit
        let ancestor ← pool.dereference stageit
        let totalSizeWithAncestors := totalSizeWithAncestors + ancestor.getTxSize env
        match checkAncestor limits stageit ancestor entrySize totalSizeWithAncestors with
        | .error failure => .ok (.error failure)
        | .ok () =>
          let setMemPoolParents ← pool.getMemPoolParents stageit
          match stageParents limits setAncestors setMemPoolParents.elements parentHashes with
          | .error failure => .ok (.error failure)
          | .ok parentHashes => ancestorsLoop entrySize fuel parentHashes setAncestors totalSizeWithAncestors

def ancestorsFrom (entry : CTxMemPoolEntry) (parentHashes : SetEntries) :
    Except MempoolError (Except LimitError SetEntries) :=
  ancestorsLoop env pool limits (entry.getTxSize env) pool.mapTx.keys.length parentHashes .empty (entry.getTxSize env)

/-- The ancestors of an entry, its parents searched for or looked up. -/
def calculateMemPoolAncestors (entry : CTxMemPoolEntry) (fSearchForParents : Bool) :
    Except MempoolError (Except LimitError SetEntries) :=
  if fSearchForParents then
    match searchForParents pool limits entry.tx.vin .empty with
    | .error failure => .ok (.error failure)
    | .ok parentHashes => ancestorsFrom env pool limits entry parentHashes
  else do
    let parentHashes ← pool.getMemPoolParents (env.hashes.getHash entry.tx)
    ancestorsFrom env pool limits entry parentHashes

/-- Callers without limits read only the set. -/
def ancestorsInPool (it : Uint256) : Except MempoolError SetEntries := do
  let entry ← pool.dereference it
  match ← calculateMemPoolAncestors env pool nNoLimit entry false with
  | .ok setAncestors => .ok setAncestors
  | .error _ => .error .assertion

end Ancestors

section Operations

variable (env : PoolEnv) (pool : CTxMemPool)

def updateAncestorsOf (add : Bool) (it : Uint256) (setAncestors : SetEntries) :
    Except MempoolError CTxMemPool := do
  let parentIters ← pool.getMemPoolParents it
  let pool := parentIters.elements.foldl (fun pool piter => pool.updateChild piter it add) pool
  let entry ← pool.dereference it
  let updateCount : Int := if add then 1 else -1
  let updateSize := updateCount * entry.getTxSize env
  let updateFee := updateCount * entry.getModifiedFee
  setAncestors.elements.foldlM (fun pool ancestorIt =>
    pool.modify ancestorIt (CTxMemPoolEntry.updateDescendantState updateSize updateFee updateCount)) pool

variable (it : Uint256)

def updateEntryForAncestors (setAncestors : SetEntries) :
    Except MempoolError CTxMemPool := do
  let ancestors ← setAncestors.elements.mapM pool.dereference
  let updateSize : Int := (ancestors.map fun ancestor => (ancestor.getTxSize env : Int)).sum
  let updateFee := (ancestors.map CTxMemPoolEntry.getModifiedFee).sum
  let updateSigOpsCost : Int := (ancestors.map fun ancestor => (ancestor.sigOpCost : Int)).sum
  pool.modify it (CTxMemPoolEntry.updateAncestorState updateSize updateFee setAncestors.size updateSigOpsCost)

def updateChildrenForRemoval : Except MempoolError CTxMemPool := do
  let setMemPoolChildren ← pool.getMemPoolChildren it
  .ok (setMemPoolChildren.elements.foldl (fun pool updateIt => pool.updateParent updateIt it false) pool)

/-- The descendants of a removed transaction lose it as an ancestor. -/
def updateDescendantsForRemoval (removeIt : Uint256) : Except MempoolError CTxMemPool := do
  let setDescendants ← pool.calculateDescendants removeIt .empty
  let entry ← pool.dereference removeIt
  let modifySize : Int := -entry.getTxSize env
  let modifyFee := -entry.getModifiedFee
  let modifySigOps := CTxMemPoolEntry.toInt32 (-entry.sigOpCost)
  (setDescendants.erase removeIt).elements.foldlM (fun pool dit =>
    pool.modify dit (CTxMemPoolEntry.updateAncestorState modifySize modifyFee (-1) modifySigOps)) pool

def updateAncestorsForRemoval (removeIt : Uint256) : Except MempoolError CTxMemPool := do
  let setAncestors ← ancestorsInPool env pool removeIt
  updateAncestorsOf env pool false removeIt setAncestors

def updateForRemoveFromMempool (entriesToRemove : SetEntries) (updateDescendants : Bool) :
    Except MempoolError CTxMemPool := do
  let pool ←
    if updateDescendants then entriesToRemove.elements.foldlM (updateDescendantsForRemoval env) pool else .ok pool
  let pool ← entriesToRemove.elements.foldlM (updateAncestorsForRemoval env) pool
  entriesToRemove.elements.foldlM updateChildrenForRemoval pool

/-- The last slot moves to the place of the removed entry. -/
def removeSlot : Except MempoolError CTxMemPool :=
  if 1 < pool.vTxHashes.length then
    match pool.vTxHashes.getLast? with
    | none => .error .invalidReference
    | some back =>
      let index := pool.vTxHashesIdx it
      if pool.vTxHashes.length ≤ index || !pool.exists back.2 then .error .invalidReference
      else .ok { pool with
        vTxHashes := (pool.vTxHashes.set index back).dropLast
        vTxHashesIdx := Function.update pool.vTxHashesIdx back.2 index }
  else .ok { pool with vTxHashes := [] }

def removeUnchecked : Except MempoolError CTxMemPool := do
  let entry ← pool.dereference it
  let pool := { pool with mapNextTx := entry.tx.vin.foldl (fun next txin => next.erase txin.prevout) pool.mapNextTx }
  let pool ← removeSlot pool it
  .ok { pool with
    totalTxSize := pool.totalTxSize - entry.getTxSize env
    mapLinks := pool.mapLinks.erase it
    mapTx := pool.mapTx.erase it }

def removeStaged (stage : SetEntries) (updateDescendants : Bool) :
    Except MempoolError CTxMemPool := do
  let pool ← updateForRemoveFromMempool env pool stage updateDescendants
  stage.elements.foldlM (removeUnchecked env) pool

/-- The first transaction to spend an outpoint keeps it. -/
def insertNext (next : AList fun _ : COutPoint => CTransaction) (prevout : COutPoint) (tx : CTransaction) :
    AList fun _ : COutPoint => CTransaction :=
  if (next.lookup prevout).isSome then next else next.insert prevout tx

/-- A new entry has the fee delta that was set for its hash. -/
def applyFeeDelta (hash newit : Uint256) : Except MempoolError CTxMemPool :=
  match pool.mapDeltas.lookup hash with
  | some delta =>
    if delta ≠ 0 then pool.modify newit fun entry => .ok (entry.updateFeeDelta delta) else .ok pool
  | none => .ok pool

variable (hash : Uint256)

def addUnchecked (entry : CTxMemPoolEntry) (setAncestors : SetEntries) :
    Except MempoolError CTxMemPool := do
  let newit := env.hashes.getHash entry.tx
  -- inserting what is there already changes nothing
  let pool := { pool with
    mapTx := if pool.exists newit then pool.mapTx else pool.mapTx.insert newit entry
    mapLinks :=
      if (pool.mapLinks.lookup newit).isSome then pool.mapLinks else pool.mapLinks.insert newit TxLinks.empty }
  let pool ← applyFeeDelta pool hash newit
  let tx := (← pool.dereference newit).tx
  let pool := { pool with
    mapNextTx := tx.vin.foldl (fun next txin => insertNext next txin.prevout tx) pool.mapNextTx }
  let setParentTransactions := empty.insertAll hashBefore (tx.vin.map fun txin => txin.prevout.hash)
  let pool := setParentTransactions.elements.foldl (fun pool phash =>
    if pool.exists phash then pool.updateParent newit phash true else pool) pool
  let pool ← updateAncestorsOf env pool true newit setAncestors
  let pool ← updateEntryForAncestors env pool newit setAncestors
  .ok { pool with
    totalTxSize := pool.totalTxSize + entry.getTxSize env
    vTxHashes := pool.vTxHashes ++ [(env.hashes.getWitnessHash tx, newit)]
    vTxHashesIdx := Function.update pool.vTxHashesIdx newit pool.vTxHashes.length }

variable (origTx : CTransaction)

def insertSpender (txToRemove : SetEntries) (i : Nat) :
    Except MempoolError SetEntries :=
  match pool.mapNextTx.lookup ⟨env.hashes.getHash origTx, UInt32.ofNat i⟩ with
  | none => .ok txToRemove
  | some next =>
    if pool.exists (env.hashes.getHash next) then .ok (txToRemove.insert hashBefore (env.hashes.getHash next))
    else .error .assertion

/-- The entries spending from a transaction outside the pool. -/
def spendersOf : Except MempoolError SetEntries :=
  (List.range origTx.vout.length).foldlM (insertSpender env pool origTx) .empty

def removeRecursive : Except MempoolError CTxMemPool := do
  let txToRemove ←
    if pool.exists (env.hashes.getHash origTx) then
      .ok (empty.insert hashBefore (env.hashes.getHash origTx))
    else spendersOf env pool origTx
  let setAllRemoves ← pool.calculateAllDescendants txToRemove.elements
  removeStaged env pool setAllRemoves false

def clearPrioritisation : CTxMemPool :=
  { pool with mapDeltas := pool.mapDeltas.erase hash }

variable (tx : CTransaction)

def removeConflict (pool : CTxMemPool) (txin : CTxIn) : Except MempoolError CTxMemPool :=
  match pool.mapNextTx.lookup txin.prevout with
  | none => .ok pool
  | some txConflict =>
    if env.hashes.getHash txConflict ≠ env.hashes.getHash tx then
      removeRecursive env (clearPrioritisation pool (env.hashes.getHash txConflict)) txConflict
    else .ok pool

def removeConflicts : Except MempoolError CTxMemPool :=
  tx.vin.foldlM (removeConflict env tx) pool

def removeConfirmed : Except MempoolError CTxMemPool := do
  let hash := env.hashes.getHash tx
  let pool ← if pool.exists hash then removeStaged env pool (empty.insert hashBefore hash) true else .ok pool
  let pool ← removeConflicts env pool tx
  .ok (clearPrioritisation pool hash)

def removeForBlock (vtx : List CTransaction) : Except MempoolError CTxMemPool :=
  vtx.foldlM (removeConfirmed env) pool

/-- The entries for which the test holds, as a set. -/
def entriesWith (test : CTxMemPoolEntry → Bool) : SetEntries :=
  empty.insertAll hashBefore
    (pool.mapTx.keys.filter fun hash => (pool.mapTx.lookup hash).any test)

/-- Transactions no longer final, or spending an immature coinbase, leave with their descendants. -/
def removeForReorg (noLongerValid : CTxMemPoolEntry → Bool) : Except MempoolError CTxMemPool := do
  let setAllRemoves ← pool.calculateAllDescendants (entriesWith pool noLongerValid).elements
  removeStaged env pool setAllRemoves false

def expire (time : Int) : Except MempoolError (CTxMemPool × Nat) := do
  let toremove := entriesWith pool fun entry => decide (entry.nTime < time)
  let stage ← pool.calculateAllDescendants toremove.elements
  let pool ← removeStaged env pool stage false
  .ok (pool, stage.size)

def lowerScore (compareDescendantScore : CTxMemPoolEntry → CTxMemPoolEntry → Bool)
    (best : Option Uint256) (hash : Uint256) : Option Uint256 :=
  match best with
  | none => some hash
  | some leader =>
    if (pool.mapTx.lookup hash).any fun entry => (pool.mapTx.lookup leader).any fun other =>
      compareDescendantScore entry other
    then some hash else some leader

/-- The index by descendant score compares floating-point products; no entry precedes the first. -/
def firstByScore (compareDescendantScore : CTxMemPoolEntry → CTxMemPoolEntry → Bool) :
    Option Uint256 :=
  pool.mapTx.keys.foldl (lowerScore pool compareDescendantScore) none

/-- The parents outside the pool whose outputs nothing in it spends any more. -/
def noSpendsRemaining : List Uint256 :=
  (tx.vin.map fun txin => txin.prevout.hash).filter fun hash =>
    !pool.exists hash && !pool.mapNextTx.keys.any fun prevout => prevout.hash == hash

def trimLoop (dynamicMemoryUsage : CTxMemPool → Nat)
    (compareDescendantScore : CTxMemPoolEntry → CTxMemPoolEntry → Bool) (sizelimit : Nat) :
    Nat → CTxMemPool → List Uint256 → Except MempoolError (CTxMemPool × List Uint256)
  | fuel, pool, pvNoSpendsRemaining =>
    if sizelimit < dynamicMemoryUsage pool then
      match firstByScore pool compareDescendantScore with
      | none => .ok (pool, pvNoSpendsRemaining)
      | some it =>
        match fuel with
        | 0 => .error .diverged
        | fuel + 1 => do
          let stage ← pool.calculateDescendants it .empty
          let txn ← stage.elements.mapM pool.dereference
          let pool ← removeStaged env pool stage false
          trimLoop dynamicMemoryUsage compareDescendantScore sizelimit fuel pool
            (pvNoSpendsRemaining ++ txn.flatMap fun entry => noSpendsRemaining pool entry.tx)
    else .ok (pool, pvNoSpendsRemaining)

def trimToSize (dynamicMemoryUsage : CTxMemPool → Nat)
    (compareDescendantScore : CTxMemPoolEntry → CTxMemPoolEntry → Bool) (pool : CTxMemPool) (sizelimit : Nat) :
    Except MempoolError (CTxMemPool × List Uint256) :=
  trimLoop env dynamicMemoryUsage compareDescendantScore sizelimit pool.mapTx.keys.length pool []

def prioritiseTransaction (nFeeDelta : CAmount) :
    Except MempoolError CTxMemPool := do
  let delta := (pool.mapDeltas.lookup hash).getD 0 + nFeeDelta
  let pool := { pool with mapDeltas := pool.mapDeltas.insert hash delta }
  if pool.exists hash then
    let pool ← pool.modify hash fun entry => .ok (entry.updateFeeDelta delta)
    let setAncestors ← ancestorsInPool env pool hash
    let pool ← setAncestors.elements.foldlM (fun pool ancestorIt =>
      pool.modify ancestorIt (CTxMemPoolEntry.updateDescendantState 0 nFeeDelta 0)) pool
    let setDescendants ← pool.calculateDescendants hash .empty
    (setDescendants.erase hash).elements.foldlM (fun pool descendantIt =>
      pool.modify descendantIt (CTxMemPoolEntry.updateAncestorState 0 nFeeDelta 0 0)) pool
  else .ok pool

/-- The `vTxHashes` slots and fee deltas stay as they are. -/
def clear : CTxMemPool :=
  { pool with mapLinks := ∅, mapTx := ∅, mapNextTx := ∅, totalTxSize := 0 }

end Operations

end Straks.Mempool
