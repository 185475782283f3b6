import Straks.Construction.Miner.EntryOrder
import Straks.Proof.MempoolTotals

namespace Straks.Mempool
open CTxMemPool Success

/-- A parent with a high fee and a child with a low one. -/
def cheapChild : List PoolCall :=
  [.addUnchecked (spending 1 [10]) 1000 0 4 .empty, .addUnchecked (spending 2 [1]) 10 0 4 (single 1)]

theorem cheapChild_ok : ∃ pool, poolAfter lockTimeEnv cheapChild = .ok pool ∧ PoolOk lockTimeEnv pool := by
  apply poolAfter_consistent
  apply along_family (by decide +kernel) (by decide +kernel) (by decide +kernel)
  exact fun _ => trivial

def countEntries (pool : CTxMemPool) : Nat := pool.mapTx.keys.length

end Straks.Mempool
