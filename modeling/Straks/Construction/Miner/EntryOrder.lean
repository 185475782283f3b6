import Straks.Construction.Miner.BlockAssembler

namespace Straks.Miner
open Chain Mempool

section Compare

variable (env : PoolEnv)

/-- The score with descendants exceeds the entry's own. -/
def useDescendantScore (a : CTxMemPoolEntry) : Bool :=
  a.getModifiedFee * a.nSizeWithDescendants < a.nModFeesWithDescendants * (a.getTxSize env : Int)

variable (a b : CTxMemPoolEntry)

/-- Equal scores go by time, and equal times precede each other. -/
def compareByDescendantScore : Bool :=
  let aModFee := if useDescendantScore env a then a.nModFeesWithDescendants else a.getModifiedFee
  let aSize : Int := if useDescendantScore env a then a.nSizeWithDescendants else a.getTxSize env
  let bModFee := if useDescendantScore env b then b.nModFeesWithDescendants else b.getModifiedFee
  let bSize : Int := if useDescendantScore env b then b.nSizeWithDescendants else b.getTxSize env
  if aModFee * bSize = aSize * bModFee then b.nTime ≤ a.nTime else aModFee * bSize < aSize * bModFee

def compareByScore : Bool :=
  let f1 := a.getModifiedFee * (b.getTxSize env : Int)
  let f2 := b.getModifiedFee * (a.getTxSize env : Int)
  if f1 = f2 then hashBefore (env.hashes.getHash b.tx) (env.hashes.getHash a.tx) else f2 < f1

def compareByEntryTime : Bool := a.nTime < b.nTime

def compareByAncestorFee : Bool :=
  let f1 := a.nModFeesWithAncestors * b.nSizeWithAncestors
  let f2 := a.nSizeWithAncestors * b.nModFeesWithAncestors
  if f1 = f2 then hashBefore (env.hashes.getHash a.tx) (env.hashes.getHash b.tx) else f2 < f1

/-- A modified entry comes with the iterator it is about. -/
def compareModifiedEntry (a b : Uint256 × CTxMemPoolModifiedEntry) : Bool :=
  let f1 := a.2.nModFeesWithAncestors * b.2.nSizeWithAncestors
  let f2 := b.2.nModFeesWithAncestors * a.2.nSizeWithAncestors
  if f1 = f2 then hashBefore a.1 b.1 else f2 < f1

end Compare

/-- The orders of the pool's indices and the modified entries. -/
inductive EntryOrder where
  | descendantScore
  | score
  | entryTime
  | ancestorFee
  | modifiedAncestorFee
  deriving DecidableEq

namespace EntryOrder

abbrev Entry : EntryOrder → Type
  | modifiedAncestorFee => Uint256 × CTxMemPoolModifiedEntry
  | _ => CTxMemPoolEntry

/-- The sizes of the entry are positive. -/
def Sized (env : PoolEnv) : (order : EntryOrder) → order.Entry → Prop
  | modifiedAncestorFee, entry => 0 < entry.2.nSizeWithAncestors
  | descendantScore, entry | score, entry | entryTime, entry | ancestorFee, entry =>
    0 < entry.getTxSize env ∧ 0 < entry.nSizeWithDescendants ∧ 0 < entry.nSizeWithAncestors

def compare (env : PoolEnv) : (order : EntryOrder) → order.Entry → order.Entry → Bool
  | descendantScore => compareByDescendantScore env
  | score => compareByScore env
  | entryTime => compareByEntryTime
  | ancestorFee => compareByAncestorFee env
  | modifiedAncestorFee => compareModifiedEntry

end EntryOrder

end Straks.Miner
