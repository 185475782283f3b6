import Mathlib.Data.List.DropRight
import Straks.Construction.Script.Script
import Mathlib.Data.List.AList

namespace Straks.Coins
open CTxOut AList Function

/-- The unspent outputs of a transaction, with what spends need. -/
structure CCoins where
  fCoinBase : Bool
  vout : List CTxOut
  nHeight : Int
  nVersion : Int32
  deriving DecidableEq

/-- The empty constructor, also what `Clear` leaves behind. -/
def CCoins.clear : CCoins := ⟨false, [], 0, 0⟩

variable (coins : CCoins)

/-- Spent outputs at the end are dropped. -/
def CCoins.cleanup : CCoins :=
  { coins with vout := coins.vout.rdropWhile isNull }

/-- An output that nobody can spend is stored as a spent one. -/
def clearOutput (txout : CTxOut) : CTxOut :=
  if Script.isUnspendable txout.scriptPubKey then null else txout

def CCoins.clearUnspendable : CCoins :=
  CCoins.cleanup { coins with vout := coins.vout.map clearOutput }

def CCoins.fromTx (tx : CTransaction) (nHeightIn : Int) : CCoins :=
  CCoins.clearUnspendable ⟨tx.isCoinBase, tx.vout, nHeightIn, tx.nVersion⟩

def CCoins.isAvailable (nPos : Nat) : Bool :=
  match coins.vout[nPos]? with
  | some txout => !txout.isNull
  | none => false

/-- Every output is spent. -/
def CCoins.isPruned : Bool := coins.vout.all isNull

/-- Spending an unavailable output fails and changes nothing. -/
def CCoins.spend (nPos : Nat) : Bool × CCoins :=
  if coins.isAvailable nPos then
    (true, CCoins.cleanup { coins with vout := coins.vout.set nPos null })
  else (false, coins)

/-- What a 64-bit allocator takes for a block of that many bytes. -/
def mallocUsage (alloc : Nat) : Nat := if alloc = 0 then 0 else (alloc + 31) / 16 * 16

/-- The heap memory of an entry without spare capacity. A script up to 28 bytes is in place. -/
def CCoins.dynamicMemoryUsage : BitVec 64 :=
  .ofNat 64 (mallocUsage (40 * coins.vout.length) + (coins.vout.map fun out =>
    if out.scriptPubKey.length ≤ 28 then 0 else mallocUsage out.scriptPubKey.length).sum)

/-- Fully spent entries are equal; others compare field by field. -/
def CCoins.same (left right : CCoins) : Bool :=
  (left.isPruned && right.isPruned) || left = right

/-- What an entry offers to a spender: nothing once fully spent. -/
def CCoins.unspent : Option CCoins :=
  if coins.isPruned then none else some coins

/-- No spent output stands at the end. -/
def CCoins.Clean : Prop := coins.cleanup = coins

instance : Decidable coins.Clean := inferInstanceAs (Decidable (_ = _))

@[simp] theorem CCoins.clear_isPruned : CCoins.clear.isPruned = true := rfl

@[simp] theorem CCoins.clear_unspent : CCoins.clear.unspent = none := rfl

variable {coins left right : CCoins}

theorem CCoins.unspent_of_pruned (pruned : coins.isPruned = true) : coins.unspent = none := by
  rw [CCoins.unspent, if_pos pruned]

theorem CCoins.unspent_of_unpruned (unpruned : coins.isPruned = false) :
    coins.unspent = some coins := by
  rw [CCoins.unspent, unpruned]
  rfl

@[simp] theorem CCoins.unspent_eq_none : coins.unspent = none ↔ coins.isPruned = true := by
  cases pruned : coins.isPruned with
  | true => simp [CCoins.unspent_of_pruned pruned]
  | false => simp [CCoins.unspent_of_unpruned pruned]

/-- The equality test compares what two entries offer. -/
theorem CCoins.same_iff : left.same right = true ↔ left.unspent = right.unspent := by
  have prunedAlike : left = right → left.isPruned = right.isPruned := congrArg CCoins.isPruned
  cases leftPruned : left.isPruned with
  | true =>
    cases rightPruned : right.isPruned with
    | true => simp [CCoins.same, CCoins.unspent, leftPruned, rightPruned]
    | false =>
      rw [leftPruned, rightPruned] at prunedAlike
      simpa [CCoins.same, CCoins.unspent, leftPruned, rightPruned] using prunedAlike
  | false =>
    cases rightPruned : right.isPruned with
    | true =>
      rw [leftPruned, rightPruned] at prunedAlike
      simpa [CCoins.same, CCoins.unspent, leftPruned, rightPruned] using prunedAlike
    | false => simp [CCoins.same, CCoins.unspent, leftPruned, rightPruned]

theorem CCoins.cleanup_clean (coins : CCoins) : coins.cleanup.Clean := by
  simp [CCoins.Clean, CCoins.cleanup, List.rdropWhile_idempotent]

/-- Dropping trailing spent outputs does not spend the entry. -/
@[simp] theorem CCoins.cleanup_isPruned (coins : CCoins) : coins.cleanup.isPruned = coins.isPruned := by
  have dropped : ∀ vout : List CTxOut,
      (vout.rdropWhile isNull).all isNull = vout.all isNull := by
    intro vout
    induction vout using List.reverseRecOn with
    | nil => rfl
    | append_singleton front last ih =>
      rw [List.rdropWhile_concat]
      split
      · rename_i null
        rw [ih]
        simp [null]
      · rfl
  exact dropped coins.vout

/-- A clean entry is fully spent exactly when it is empty. -/
theorem CCoins.Clean.isPruned_iff (clean : coins.Clean) :
    coins.isPruned = true ↔ coins.vout = [] := by
  constructor
  · intro pruned
    have vout : coins.vout.rdropWhile isNull = coins.vout := congrArg CCoins.vout clean
    rw [← vout, List.rdropWhile_eq_nil_iff]
    exact List.all_eq_true.mp pruned
  · intro empty
    simp [CCoins.isPruned, empty]

/-- The clean-up depends only on what was there for a spender. -/
theorem CCoins.cleanup_unspent_congr (same : left.unspent = right.unspent) :
    left.cleanup.unspent = right.cleanup.unspent := by
  cases leftPruned : left.isPruned with
  | true =>
    have rightPruned : right.isPruned = true := by
      rw [← CCoins.unspent_eq_none, ← same, CCoins.unspent_eq_none]
      exact leftPruned
    rw [CCoins.unspent_of_pruned (by simpa), CCoins.unspent_of_pruned (by simpa)]
  | false =>
    have rightPruned : right.isPruned = false := by
      rw [Bool.eq_false_iff, Ne, ← CCoins.unspent_eq_none, ← same, CCoins.unspent_eq_none, leftPruned]
      exact Bool.false_ne_true
    rw [CCoins.unspent_of_unpruned leftPruned, CCoins.unspent_of_unpruned rightPruned] at same
    rw [Option.some.inj same]

/-- The unspent outputs by transaction. None is fully spent or ends with a spent output. -/
structure UtxoSet where
  coins : AList fun _ : Uint256 => CCoins
  unspent : ∀ txid entry, coins.lookup txid = some entry → entry.isPruned = false ∧ entry.Clean

namespace UtxoSet

def empty : UtxoSet := ⟨∅, fun _ _ stored => nomatch stored⟩

def getCoins (view : UtxoSet) (txid : Uint256) : Option CCoins := view.coins.lookup txid

/-- A fully spent entry is erased, others lose trailing spent outputs. -/
def store (view : UtxoSet) (txid : Uint256) (coins : CCoins) : UtxoSet :=
  if pruned : coins.isPruned = true then
    { coins := view.coins.erase txid
      unspent := by
        intro id stored found
        by_cases same : id = txid
        · rw [same, lookup_erase] at found
          cases found
        · rw [lookup_erase_ne same] at found
          exact view.unspent id stored found }
  else
    { coins := view.coins.insert txid coins.cleanup
      unspent := by
        intro id stored found
        by_cases same : id = txid
        · rw [same, lookup_insert] at found
          cases found
          exact ⟨by simpa using pruned, coins.cleanup_clean⟩
        · rw [lookup_insert_ne same] at found
          exact view.unspent id stored found }

variable (view : UtxoSet) (txid : Uint256) (coins : CCoins)

@[simp] theorem getCoins_empty : empty.getCoins txid = none := rfl

/-- The set stores nothing that is fully spent. -/
theorem getCoins_bind_unspent :
    (view.getCoins txid).bind CCoins.unspent = view.getCoins txid := by
  cases found : view.getCoins txid with
  | none => rfl
  | some coins => exact CCoins.unspent_of_unpruned (view.unspent txid coins found).1

theorem getCoins_store :
    (view.store txid coins).getCoins = update view.getCoins txid coins.cleanup.unspent := by
  funext other
  rw [store]
  split
  · rename_i pruned
    by_cases same : other = txid
    · rw [same, update_self, CCoins.unspent_of_pruned (by simpa using pruned)]
      exact lookup_erase _ _
    · rw [update_of_ne same]
      exact lookup_erase_ne same
  · rename_i unpruned
    by_cases same : other = txid
    · rw [same, update_self, CCoins.unspent_of_unpruned (by simpa using unpruned)]
      exact lookup_insert _
    · rw [update_of_ne same]
      exact lookup_insert_ne same

theorem getCoins_store_self :
    (view.store txid coins).getCoins txid = coins.cleanup.unspent := by
  rw [getCoins_store, update_self]

theorem getCoins_store_of_ne {txid other : Uint256} (different : other ≠ txid) :
    (view.store txid coins).getCoins other = view.getCoins other := by
  rw [getCoins_store, update_of_ne different]

end UtxoSet

end Straks.Coins
