import Straks.Construction.Coins.Coins

namespace Straks.Coins

inductive CacheError where
  /-- An `assert` fails and the node stops. -/
  | assertion
  /-- `ModifyNewCoins` finds coins that already exist. -/
  | preExistingCoins
  /-- `BatchWrite` finds unspent outputs below a fresh entry. -/
  | freshMisapplied
  deriving DecidableEq, Repr

/-- A cached entry. A dirty one can differ from below; below a fresh one nothing is unspent. -/
structure CCoinsCacheEntry where
  coins : CCoins
  dirty : Bool
  fresh : Bool
  deriving DecidableEq

abbrev CCoinsMap := AList fun _ : Uint256 => CCoinsCacheEntry

structure CCoinsViewCache where
  cacheCoins : CCoinsMap
  hashBlock : Uint256
  hasModifier : Bool
  cachedCoinsUsage : BitVec 64

def CCoinsViewCache.new : CCoinsViewCache := ⟨∅, 0, false, 0⟩

variable (cache : CCoinsViewCache) (txid : Uint256)

def CCoinsViewCache.insert (entry : CCoinsCacheEntry) :
    CCoinsViewCache :=
  { cache with cacheCoins := cache.cacheCoins.insert txid entry }

def CCoinsViewCache.erase : CCoinsViewCache :=
  { cache with cacheCoins := cache.cacheCoins.erase txid }

/-- The counter loses an entry's old usage and gains the new one. -/
def CCoinsViewCache.recount (old new : BitVec 64) : CCoinsViewCache :=
  { cache with cachedCoinsUsage := cache.cachedCoinsUsage - old + new }

/-- The usage of the entry for a transaction, if there is one. -/
def CCoinsViewCache.usageAt : BitVec 64 :=
  (cache.cacheCoins.lookup txid).elim 0 fun entry => entry.coins.dynamicMemoryUsage

/-- The database stores unspent entries; reading drops the spent outputs at the end. -/
structure CCoinsViewDB extends UtxoSet where
  bestBlock : Uint256

variable (db : CCoinsViewDB)

/-- A dirty entry of a batch erases or overwrites its record. -/
def CCoinsViewDB.write (txid : Uint256) (entry : CCoinsCacheEntry) : CCoinsViewDB :=
  if entry.dirty then { db with toUtxoSet := db.store txid entry.coins } else db

/-- The batch of a flush; a null best block is not written. -/
def CCoinsViewDB.batchWrite (mapCoins : CCoinsMap) (hashBlock : Uint256) : CCoinsViewDB :=
  let written := mapCoins.entries.foldl (fun db entry => db.write entry.1 entry.2) db
  if hashBlock = 0 then written else { written with bestBlock := hashBlock }

/-- `GetCoins` of the layers, topmost first, over the database. A layer without an entry keeps a copy of the answer
from below, fresh when nothing of it is unspent. -/
def fetchCoins (db : CCoinsViewDB) (txid : Uint256) :
    List CCoinsViewCache → Option CCoins × List CCoinsViewCache
  | [] => (db.getCoins txid, [])
  | cache :: base =>
    match cache.cacheCoins.lookup txid with
    | some entry => (some entry.coins, cache :: base)
    | none =>
      match fetchCoins db txid base with
      | (none, base) => (none, cache :: base)
      | (some coins, base) =>
        (some coins, (cache.insert txid ⟨coins, false, coins.isPruned⟩).recount 0 coins.dynamicMemoryUsage :: base)

/-- An entry is present when its output vector is not empty. -/
def haveCoins (db : CCoinsViewDB) (txid : Uint256) (layers : List CCoinsViewCache) :
    Bool × List CCoinsViewCache :=
  match fetchCoins db txid layers with
  | (none, layers) => (false, layers)
  | (some coins, layers) => (!coins.vout.isEmpty, layers)

/-- The constructor of a modifier. -/
def CCoinsViewCache.beginModify : Except CacheError CCoinsViewCache :=
  if cache.hasModifier then .error .assertion else .ok { cache with hasModifier := true }

/-- The destructor of a modifier cleans the entry up and forgets a fresh spent one. -/
def CCoinsViewCache.endModify (cachedCoinUsage : BitVec 64)
    (entry : CCoinsCacheEntry) : Except CacheError CCoinsViewCache :=
  if cache.hasModifier then
    let entry := { entry with coins := entry.coins.cleanup }
    let cache := { cache with hasModifier := false }
    .ok (if entry.fresh && entry.coins.isPruned then (cache.erase txid).recount cachedCoinUsage 0
      else (cache.insert txid entry).recount cachedCoinUsage entry.coins.dynamicMemoryUsage)
  else .error .assertion

/-- The entry `ModifyCoins` hands out before it is dirty. -/
def entryToModify (db : CCoinsViewDB) (cache : CCoinsViewCache) (base : List CCoinsViewCache) (txid : Uint256) :
    CCoinsCacheEntry × List CCoinsViewCache :=
  match cache.cacheCoins.lookup txid with
  | some entry => (entry, base)
  | none =>
    match fetchCoins db txid base with
    | (none, base) => (⟨CCoins.clear, false, true⟩, base)
    | (some coins, base) => (⟨coins, false, coins.isPruned⟩, base)

/-- `ModifyCoins`, the modification, and the end of the modifier's life. -/
def modifyCoins (cache : CCoinsViewCache) (base : List CCoinsViewCache) (txid : Uint256)
    (modification : CCoins → CCoins) : Except CacheError (List CCoinsViewCache) := do
  let opened ← cache.beginModify
  let (entry, base) := entryToModify db cache base txid
  let closed ← opened.endModify txid (cache.usageAt txid) { entry with coins := modification entry.coins, dirty := true }
  return closed :: base

/-- The entry `ModifyNewCoins` starts from; nothing is read below. -/
def newEntry : CCoinsCacheEntry :=
  (cache.cacheCoins.lookup txid).getD ⟨CCoins.clear, false, false⟩

/-- `ModifyNewCoins`, for outputs the caller knows to be new, coinbases aside. -/
def modifyNewCoins (base : List CCoinsViewCache) (txid : Uint256) (coinbase : Bool)
    (modification : CCoins → CCoins) : Except CacheError (List CCoinsViewCache) := do
  let opened ← cache.beginModify
  let entry := newEntry cache txid
  if !coinbase && !entry.coins.isPruned then
    .error .preExistingCoins
  else
    let fresh := entry.fresh || (!coinbase && !entry.dirty)
    let closed ← opened.endModify txid 0 ⟨modification CCoins.clear, true, fresh⟩
    return closed :: base

/-- A dirty entry of a batch meets the parent's entry. -/
def CCoinsViewCache.write (parent : CCoinsViewCache) (txid : Uint256) (entry : CCoinsCacheEntry) :
    Except CacheError CCoinsViewCache :=
  if entry.dirty then
    match parent.cacheCoins.lookup txid with
    | none =>
      if entry.fresh && entry.coins.isPruned then .ok parent
      else .ok ((parent.insert txid ⟨entry.coins, true, entry.fresh⟩).recount 0 entry.coins.dynamicMemoryUsage)
    | some ours =>
      if entry.fresh && !ours.coins.isPruned then .error .freshMisapplied
      else if ours.fresh && entry.coins.isPruned then .ok ((parent.erase txid).recount ours.coins.dynamicMemoryUsage 0)
      else .ok ((parent.insert txid ⟨entry.coins, true, ours.fresh⟩).recount ours.coins.dynamicMemoryUsage
        entry.coins.dynamicMemoryUsage)
  else .ok parent

/-- The batch of a flush, entry by entry. -/
def CCoinsViewCache.writeAll :
    List (Sigma fun _ : Uint256 => CCoinsCacheEntry) → CCoinsViewCache → Except CacheError CCoinsViewCache
  | [], parent => .ok parent
  | entry :: rest, parent => do
    let parent ← parent.write entry.1 entry.2
    CCoinsViewCache.writeAll rest parent

def CCoinsViewCache.batchWrite (parent : CCoinsViewCache) (mapCoins : CCoinsMap) (hashBlockIn : Uint256) :
    Except CacheError CCoinsViewCache :=
  if parent.hasModifier then .error .assertion
  else do
    let written ← CCoinsViewCache.writeAll mapCoins.entries parent
    return { written with hashBlock := hashBlockIn }

/-- A flush writes the layer into the view below and empties it. -/
def flush (db : CCoinsViewDB) (cache : CCoinsViewCache) (base : List CCoinsViewCache) :
    Except CacheError (List CCoinsViewCache × CCoinsViewDB) :=
  let emptied := { cache with cacheCoins := ∅, cachedCoinsUsage := 0 }
  match base with
  | [] => .ok ([emptied], db.batchWrite cache.cacheCoins cache.hashBlock)
  | parent :: rest => do
    let parent ← parent.batchWrite cache.cacheCoins cache.hashBlock
    return (emptied :: parent :: rest, db)

/-- Only an entry neither dirty nor fresh leaves the cache. -/
def CCoinsViewCache.uncache (hash : Uint256) : CCoinsViewCache :=
  match cache.cacheCoins.lookup hash with
  | some entry => if !entry.dirty && !entry.fresh then (cache.erase hash).recount entry.coins.dynamicMemoryUsage 0 else cache
  | none => cache

/-- A call at the layer with that many layers above it. -/
inductive CacheCall where
  | getCoins (txid : Uint256)
  | haveCoins (txid : Uint256)
  | accessCoins (txid : Uint256)
  | modifyCoins (txid : Uint256) (modification : CCoins → CCoins)
  | modifyNewCoins (txid : Uint256) (coinbase : Bool) (modification : CCoins → CCoins)
  | setBestBlock (hashBlock : Uint256)
  | uncache (hash : Uint256)
  | flush

structure StackCall where
  depth : Nat
  call : CacheCall

/-- What a caller learns. A fully spent entry looks like none. -/
inductive Answer where
  | coins (found : Option CCoins)
  | have (found : Bool)
  | done
  deriving DecidableEq

structure Stack where
  /-- The topmost cache comes first. -/
  layers : List CCoinsViewCache
  db : CCoinsViewDB

/-- The call at a layer, given the layers from it downwards. -/
def callLayer (cache : CCoinsViewCache) (base : List CCoinsViewCache) (call : CacheCall) :
    Except CacheError (List CCoinsViewCache × CCoinsViewDB × Answer) :=
  match call with
  | .getCoins txid | .accessCoins txid =>
    let fetched := fetchCoins db txid (cache :: base)
    .ok (fetched.2, db, .coins (fetched.1.bind CCoins.unspent))
  | .haveCoins txid =>
    let found := haveCoins db txid (cache :: base)
    .ok (found.2, db, .have found.1)
  | .modifyCoins txid modification => do
    let layers ← modifyCoins db cache base txid modification
    return (layers, db, .done)
  | .modifyNewCoins txid coinbase modification => do
    let layers ← modifyNewCoins cache base txid coinbase modification
    return (layers, db, .done)
  | .setBestBlock hashBlock => .ok ({ cache with hashBlock := hashBlock } :: base, db, .done)
  | .uncache hash => .ok (cache.uncache hash :: base, db, .done)
  | .flush => do
    let (layers, db) ← flush db cache base
    return (layers, db, .done)

/-- A call leaves the layers above its own alone. -/
def Stack.step (stack : Stack) (call : StackCall) : Except CacheError (Stack × Answer) :=
  match stack.layers.drop call.depth with
  | [] => .ok (stack, .done)
  | cache :: base => do
    let (layers, db, answer) ← callLayer stack.db cache base call.call
    return (⟨stack.layers.take call.depth ++ layers, db⟩, answer)

def Stack.run : Stack → List StackCall → Except CacheError (Stack × List Answer)
  | stack, [] => .ok (stack, [])
  | stack, call :: calls => do
    let (stack, answer) ← stack.step call
    let (stack, answers) ← stack.run calls
    return (stack, answer :: answers)

/-- A number of empty caches over a database. -/
def Stack.new (layers : Nat) (db : CCoinsViewDB) : Stack := ⟨List.replicate layers CCoinsViewCache.new, db⟩

end Straks.Coins
