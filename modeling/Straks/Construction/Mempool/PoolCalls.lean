import Straks.Construction.Mempool.TxMempool
import Straks.Library.Run

namespace Straks.Mempool
open Chain CTxMemPoolEntry

/-- The descendants found for earlier entries of the block. -/
abbrev CacheMap := AList fun _ : Uint256 => SetEntries

section FromBlock

variable (env : PoolEnv)

/-- A child whose descendants are known is not walked again. -/
def stageDescendant (cachedDescendants : CacheMap) (sets : SetEntries × SetEntries) (childEntry : Uint256) :
    SetEntries × SetEntries :=
  match cachedDescendants.lookup childEntry with
  | some cached => (sets.1, sets.2.insertAll hashBefore cached.elements)
  | none => if sets.2.contains childEntry then sets else (sets.1.insert hashBefore childEntry, sets.2)

def descendantsLoop (pool : CTxMemPool) (cachedDescendants : CacheMap) :
    Nat → SetEntries → SetEntries → Except MempoolError SetEntries
  | fuel, stageEntries, setAllDescendants =>
    match stageEntries.elements with
    | [] => .ok setAllDescendants
    | cit :: _ =>
      match fuel with
      | 0 => .error .diverged
      | fuel + 1 => do
        let setChildren ← pool.getMemPoolChildren cit
        let sets := setChildren.elements.foldl (stageDescendant cachedDescendants)
          (stageEntries.erase cit, setAllDescendants.insert hashBefore cit)
        descendantsLoop pool cachedDescendants fuel sets.1 sets.2

/-- A transaction of the block gets the totals of its descendants outside. -/
def updateForDescendants (pool : CTxMemPool) (updateIt : Uint256) (cachedDescendants : CacheMap)
    (setExclude : List Uint256) : Except MempoolError (CTxMemPool × CacheMap) := do
  let stageEntries ← pool.getMemPoolChildren updateIt
  let setAllDescendants ← descendantsLoop pool cachedDescendants pool.mapTx.keys.length stageEntries .empty
  let included := setAllDescendants.elements.filter fun cit => !setExclude.contains cit
  let descendants ← included.mapM pool.dereference
  let updated ← pool.dereference updateIt
  let modifySize : Int := (descendants.map fun entry => (entry.getTxSize env : Int)).sum
  let modifyFee := (descendants.map getModifiedFee).sum
  let pool ← included.foldlM (fun pool cit => pool.modify cit
    (updateAncestorState (updated.getTxSize env) updated.getModifiedFee 1 updated.sigOpCost)) pool
  let pool ← pool.modify updateIt (updateDescendantState modifySize modifyFee included.length)
  let cached := ((cachedDescendants.lookup updateIt).getD .empty).insertAll hashBefore included
  .ok (pool, if included.isEmpty then cachedDescendants else cachedDescendants.insert updateIt cached)

/-- A child not from the block is linked to one that is. -/
def linkChild (setAlreadyIncluded : List Uint256) (hash : Uint256) (state : CTxMemPool × SetEntries)
    (prevout : COutPoint) : Except MempoolError (CTxMemPool × SetEntries) :=
  match state.1.mapNextTx.lookup prevout with
  | none => .ok state
  | some child =>
    let childHash := env.hashes.getHash child
    if !state.1.exists childHash then .error .assertion
    else if !state.2.contains childHash && !setAlreadyIncluded.contains childHash then
      .ok ((state.1.updateChild hash childHash true).updateParent childHash hash true,
        state.2.insert hashBefore childHash)
    else .ok (state.1, state.2.insert hashBefore childHash)

def updateFromBlock (setAlreadyIncluded : List Uint256) (state : CTxMemPool × CacheMap) (hash : Uint256) :
    Except MempoolError (CTxMemPool × CacheMap) :=
  if state.1.exists hash then do
    let spent := state.1.mapNextTx.keys.filter fun prevout => prevout.hash == hash
    let linked ← (spent.mergeSort fun first second => decide (first.n ≤ second.n)).foldlM
      (linkChild env setAlreadyIncluded hash) (state.1, .empty)
    updateForDescendants env linked.1 hash state.2 setAlreadyIncluded
  else .ok state

/-- Transactions of a disconnected block may have children in the pool. -/
def updateTransactionsFromBlock (pool : CTxMemPool) (vHashesToUpdate : List Uint256) :
    Except MempoolError CTxMemPool :=
  Prod.fst <$> vHashesToUpdate.reverse.foldlM (updateFromBlock env vHashesToUpdate) (pool, ∅)

end FromBlock

/-- The calls that change the pool. -/
inductive PoolCall where
  | addUnchecked (tx : CTransaction) (nFee : CAmount) (nTime : Int) (sigOpCost : Nat) (setAncestors : SetEntries)
  | removeRecursive (origTx : CTransaction)
  | removeForReorg (noLongerValid : CTxMemPoolEntry → Bool)
  | removeConflicts (tx : CTransaction)
  | removeForBlock (vtx : List CTransaction)
  | removeStaged (stage : SetEntries) (updateDescendants : Bool)
  | expire (time : Int)
  | trimToSize (dynamicMemoryUsage : CTxMemPool → Nat)
      (compareDescendantScore : CTxMemPoolEntry → CTxMemPoolEntry → Bool) (sizelimit : Nat)
  | prioritiseTransaction (hash : Uint256) (nFeeDelta : CAmount)
  | clearPrioritisation (hash : Uint256)
  | updateTransactionsFromBlock (vHashesToUpdate : List Uint256)
  | clear

variable (env : PoolEnv)

def PoolCall.apply (pool : CTxMemPool) : PoolCall → Except MempoolError CTxMemPool
  | .addUnchecked tx nFee nTime sigOpCost setAncestors =>
    Mempool.addUnchecked env pool (env.hashes.getHash tx) (new env tx nFee nTime sigOpCost) setAncestors
  | .removeRecursive origTx => Mempool.removeRecursive env pool origTx
  | .removeForReorg noLongerValid => Mempool.removeForReorg env pool noLongerValid
  | .removeConflicts tx => Mempool.removeConflicts env pool tx
  | .removeForBlock vtx => Mempool.removeForBlock env pool vtx
  | .removeStaged stage updateDescendants => Mempool.removeStaged env pool stage updateDescendants
  | .expire time => Prod.fst <$> Mempool.expire env pool time
  | .trimToSize dynamicMemoryUsage compareDescendantScore sizelimit =>
    Prod.fst <$> Mempool.trimToSize env dynamicMemoryUsage compareDescendantScore pool sizelimit
  | .prioritiseTransaction hash nFeeDelta => Mempool.prioritiseTransaction env pool hash nFeeDelta
  | .clearPrioritisation hash => .ok (Mempool.clearPrioritisation pool hash)
  | .updateTransactionsFromBlock vHashesToUpdate => Mempool.updateTransactionsFromBlock env pool vHashesToUpdate
  | .clear => .ok (Mempool.clear pool)

/-- The pool after a sequence of calls, from an empty one on. -/
def poolAfter (calls : List PoolCall) : Except MempoolError CTxMemPool :=
  Run.runUntil (PoolCall.apply env) .empty calls

/-- Additions that are admitted under limits, and removals. -/
inductive LimitedCall where
  | accept (tx : CTransaction) (nFee : CAmount) (nTime : Int) (sigOpCost : Nat)
  | removeStaged (stage : SetEntries)
  | removeConfirmed (hash : Uint256)

/-- A transaction that hits a limit is not added. -/
def LimitedCall.apply (limits : Limits) (pool : CTxMemPool) :
    LimitedCall → Except MempoolError CTxMemPool
  | .accept tx nFee nTime sigOpCost => do
    let entry := new env tx nFee nTime sigOpCost
    match ← calculateMemPoolAncestors env pool limits entry true with
    | .error _ => .ok pool
    | .ok setAncestors => addUnchecked env pool (env.hashes.getHash tx) entry setAncestors
  | .removeStaged stage => Mempool.removeStaged env pool stage false
  | .removeConfirmed hash => Mempool.removeStaged env pool (OrderedSet.empty.insert hashBefore hash) true

end Straks.Mempool
