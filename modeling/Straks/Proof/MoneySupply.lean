import Straks.Proof.BlockLoop
import Straks.Proof.HeightPrefix

namespace Straks.Chain
open Coins Success List ChainTip

/-- The sum of the block subsidies from height one on. -/
def subsidySum : Nat → CAmount
  | 0 => 0
  | height + 1 => subsidySum height + getBlockSubsidy (height + 1)

/-- The subsidies: the swap allocation and ten coins a block. -/
theorem subsidySum_eq (height : Nat) :
    subsidySum (height + 1) = (41250000 + 10 * ((min (height + 1) 10885080 - 10080 : Nat) : Int)) * coin := by
  induction height with
  | zero => rfl
  | succ height ih =>
    rw [subsidySum, ih, getBlockSubsidy, preSubsidyHeight]
    rcases Nat.lt_or_ge (height + 1) 10080 with protection | later
    · rw [if_neg (by omega), if_pos (by omega), show min (height + 1) 10885080 - 10080 = 0 by omega,
        show min (height + 1 + 1) 10885080 - 10080 = 0 by omega]
      rfl
    · rcases Nat.lt_or_ge (height + 1) 10885080 with paid | ended
      · have step : ((min (height + 1 + 1) 10885080 - 10080 : Nat) : Int) =
            ((min (height + 1) 10885080 - 10080 : Nat) : Int) + 1 := by omega
        rw [step]
        lia
      · rw [if_neg (by omega), if_neg (by omega), if_pos (by omega),
          show min (height + 1 + 1) 10885080 = min (height + 1) 10885080 by omega, add_zero]

/-- The subsidies never add up to more than the money limit. -/
theorem subsidySum_le_maxMoney (height : Nat) : subsidySum height ≤ maxMoney := by
  cases height with
  | zero => decide
  | succ height =>
    rw [subsidySum_eq, maxMoney, coin]
    lia

variable {getHash : CTransaction → Uint256}

variable {env : BlockEnv} {block : CBlock} {pindex : ConnectIndex} {coinbase : CTransaction} {rest : List CTransaction}
  {next : NextBlock} {blocks : List NextBlock} {tip : ChainTip}

/-- A block after genesis is checked and connected. -/
theorem connectBlock_body {view : ChainView} {fJustCheck : Bool} {connected : Connected}
    (success : connectBlock getHash env block pindex view fJustCheck = .ok connected)
    (notGenesis : env.getBlockHash block.toCBlockHeader ≠ env.hashGenesisBlock) :
    ∃ coinbase rest state, CheckedBlock block coinbase rest ∧
      connectBody getHash env block pindex view.utxo = .ok state ∧ connected.view.utxo = state.view ∧
      connected.vtxundo = state.vtxundo ∧
      connected.nMoneySupply = pindex.prevMoneySupply + state.nValueOut - state.nValueIn := by
  obtain ⟨_, checks, afterChecks⟩ := bind_eq_ok.mp success
  obtain ⟨coinbase, rest, checked⟩ := checkBlock_checked checks
  by_cases linked : pindex.hashPrevBlock ≠ view.bestBlock
  · rw [if_pos linked] at afterChecks
    cases afterChecks
  · simp only [if_neg linked, if_neg notGenesis] at afterChecks
    obtain ⟨state, body, returned⟩ := bind_eq_ok.mp afterChecks
    cases returned
    exact ⟨coinbase, rest, state, checked, body, rfl, rfl, rfl⟩

variable {view : UtxoSet} {state : ConnectState} {tx : CTransaction} {height : Nat} {final : ChainTip}

theorem connectBody_eq_ok (success : connectBody getHash env block pindex view = .ok state) :
    connectTransactions getHash env pindex.nHeight true ⟨view, [], 0, 0, 0, 0⟩ block.vtx = .ok state ∧
      ((coinbaseOutputs block).map CTxOut.nValue).sum ≤ state.nFees + getBlockSubsidy pindex.nHeight := by
  obtain ⟨_, _, afterChecks⟩ := bind_eq_ok.mp success
  obtain ⟨reached, loop, afterLoop⟩ := bind_eq_ok.mp afterChecks
  obtain ⟨value, counted, afterValue⟩ := bind_eq_ok.mp afterLoop
  split_ifs at afterValue with bounded
  cases afterValue
  rw [(addValueOut_ok counted).1, zero_add] at bounded
  exact ⟨loop, not_lt.mp bounded⟩

/-- A connected block extends the history, keeps the value and mints at most its subsidy. -/
theorem connectBody_supply {origin : UtxoSet} {connected : List CTransaction}
    (success : connectBody getHash env block pindex view = .ok state) (checked : CheckedBlock block coinbase rest)
    (history : History getHash origin connected view) (injective : IdsInjective getHash (connected ++ block.vtx))
    (fresh : ∀ tx ∈ block.vtx, origin.getCoins (getHash tx) = none) (new : getHash coinbase ∉ connected.map getHash) :
    History getHash origin (connected ++ block.vtx) state.view ∧
      state.view.value + burnedValue block.vtx = view.value + state.nValueOut - state.nValueIn ∧
      state.nValueOut - state.nValueIn ≤ getBlockSubsidy pindex.nHeight := by
  obtain ⟨loop, bounded⟩ := connectBody_eq_ok success
  have reward : (coinbaseOutputs block) = coinbase.vout := by
    rw [coinbaseOutputs, checked.vtx]
    rfl
  have allChecked := checked.checked
  rw [checked.vtx] at loop injective fresh allChecked ⊢
  obtain ⟨afterCoinbase, step, later⟩ := bind_eq_ok.mp loop
  have stepped := connectTransaction_connected step
  obtain ⟨vprevout, updated⟩ := stepped.updated
  have freshCoinbase := fresh coinbase mem_cons_self
  have value := stepped.value (allChecked coinbase mem_cons_self) (history.entries _ new freshCoinbase)
  have extended := history.connect updated new freshCoinbase stepped.available
  have together : (connected ++ [coinbase]) ++ rest = connected ++ coinbase :: rest := by simp
  obtain ⟨finalHistory, finalValue, finalFees⟩ := connectTransactions_rest later extended (together ▸ injective)
    (fun tx member => fresh tx (mem_cons_of_mem coinbase member))
    (fun tx member => allChecked tx (mem_cons_of_mem coinbase member)) checked.others
  have coinbaseIn : afterCoinbase.nValueIn = 0 := by
    have counted := stepped.nValueIn
    rw [getValueIn, if_pos checked.coinbase] at counted
    have zero := Except.ok.inj counted
    simp only [sub_zero] at zero
    exact zero.symm
  have coinbaseOut := stepped.nValueOut
  have coinbaseFees := stepped.nFees
  rw [if_pos checked.coinbase] at coinbaseFees
  have burned : burnedValue (coinbase :: rest) = unspendableValue coinbase.vout + burnedValue rest := by
    simp [burnedValue]
  rw [FeesExact] at finalFees
  refine ⟨together ▸ finalHistory, ?_, ?_⟩
  · lia
  · lia

/-- The first input's script starts with the push of the height. -/
def CarriesHeight (tx : CTransaction) (height : Nat) : Prop :=
  ∃ script, tx.vin.head?.map CTxIn.scriptSig = some script ∧ Script.pushInt64 [] height <+: script

theorem CarriesHeight.unique {left right : Nat} (carriesLeft : CarriesHeight tx left)
    (carriesRight : CarriesHeight tx right) (leftPositive : 0 < left) (rightPositive : 0 < right)
    (leftFits : left < 2 ^ 31) (rightFits : right < 2 ^ 31) : left = right := by
  obtain ⟨script, first, startsLeft⟩ := carriesLeft
  obtain ⟨other, same, startsRight⟩ := carriesRight
  obtain rfl : script = other := Option.some.inj (first.symm.trans same)
  exact Script.pushInt64_prefix_unique leftPositive rightPositive (by omega) (by omega) startsLeft startsRight

theorem carriesHeight_withoutWitness : CarriesHeight tx.withoutWitness height ↔ CarriesHeight tx height := by
  have sameScript : tx.withoutWitness.vin.head?.map CTxIn.scriptSig = tx.vin.head?.map CTxIn.scriptSig := by
    rw [CTransaction.withoutWitness]
    cases tx.vin <;> rfl
  rw [CarriesHeight, CarriesHeight, sameScript]

/-- A block above genesis passing `ContextualCheckBlock` has its height in the coinbase. -/
theorem contextualCheckBlock_height (success : contextualCheckBlock next.env next.block height = .ok ())
    (vtx : next.block.vtx = coinbase :: rest) (positive : 0 < height) : CarriesHeight coinbase height := by
  have active : next.env.params.BIP34Height ≤ height := by
    rw [next.onNetwork]
    cases next.network <;> simp [getConsensus, mainParams, testParams, regtestParams] <;> omega
  rw [contextualCheckBlock] at success
  split_ifs at success with _ matches_
  have starts : startsWithHeight next.block height = true := by
    by_contra mismatch
    exact matches_ ⟨active, by simpa using mismatch⟩
  rw [startsWithHeight, vtx, head?_cons, Option.bind_some] at starts
  cases first : coinbase.vin.head? with
  | none =>
    rw [first] at starts
    cases starts
  | some txin =>
    rw [first] at starts
    refine ⟨txin.scriptSig, by rw [first]; rfl, ?_⟩
    exact isPrefixOf_iff_prefix.mp starts

/-- All transactions of blocks, in the order connected. -/
def chainTransactions (blocks : List NextBlock) : List CTransaction := blocks.flatMap fun next => next.block.vtx

/-- What holds of the tip after the blocks are connected. -/
structure ChainOk (getHash : CTransaction → Uint256) (blocks : List NextBlock) (tip : ChainTip) : Prop where
  history : History getHash UtxoSet.empty (chainTransactions blocks) tip.view.utxo
  height : tip.nHeight = blocks.length
  coinbases : ∀ tx ∈ chainTransactions blocks, tx.isCoinBase = true →
    ∃ height, 0 < height ∧ height ≤ blocks.length ∧ CarriesHeight tx height
  supply : tip.nMoneySupply = tip.view.utxo.value + burnedValue (chainTransactions blocks)
  bounded : tip.nMoneySupply ≤ subsidySum blocks.length

theorem ChainOk.genesis (getHash : CTransaction → Uint256) (hashGenesisBlock : Uint256) :
    ChainOk getHash [] (genesis hashGenesisBlock) where
  history := History.initial getHash UtxoSet.empty
  height := rfl
  coinbases := fun _ member => nomatch member
  supply := rfl
  bounded := Int.le_refl 0

/-- A coinbase with the next height has a new id, as an earlier one would carry two heights. -/
theorem ChainOk.coinbase_new (chain : ChainOk getHash blocks tip)
    (contextual : contextualCheckBlock next.env next.block (tip.nHeight + 1) = .ok ())
    (checked : CheckedBlock next.block coinbase rest)
    (injective : IdsInjective getHash (chainTransactions blocks ++ next.block.vtx)) (fits : blocks.length + 1 < 2 ^ 31)
    : CarriesHeight coinbase (blocks.length + 1) ∧ getHash coinbase ∉ (chainTransactions blocks).map getHash := by
  have nextHeight : tip.nHeight + 1 = ((blocks.length + 1 : Nat) : Int) := by
    rw [chain.height]
    rfl
  rw [nextHeight] at contextual
  have carries := contextualCheckBlock_height contextual checked.vtx (Nat.succ_pos _)
  have coinbaseHere : coinbase ∈ next.block.vtx := checked.vtx ▸ mem_cons_self
  refine ⟨carries, ?_⟩
  intro member
  obtain ⟨old, connectedOld, sameId⟩ := mem_map.mp member
  have sameTransaction := injective old (mem_append_left _ connectedOld) coinbase
    (mem_append_right _ coinbaseHere) sameId
  have oldCoinbase : old.isCoinBase = true := by
    rw [← isCoinBase_withoutWitness, sameTransaction, isCoinBase_withoutWitness, checked.coinbase]
  obtain ⟨height, positive, within, oldCarries⟩ := chain.coinbases old connectedOld oldCoinbase
  have carriesBoth : CarriesHeight coinbase height := by
    rw [← carriesHeight_withoutWitness, ← sameTransaction, carriesHeight_withoutWitness]
    exact oldCarries
  have equal := carriesBoth.unique carries positive (Nat.succ_pos _) (by omega) fits
  omega

/-- Connecting one more block keeps the supply accounted for. -/
theorem ChainOk.connect (chain : ChainOk getHash blocks tip) (success : tip.connect getHash next = .ok final)
    (injective : IdsInjective getHash (chainTransactions (blocks ++ [next]))) (fits : blocks.length + 1 < 2 ^ 31) :
    ChainOk getHash (blocks ++ [next]) final := by
  have transactions : chainTransactions (blocks ++ [next]) = chainTransactions blocks ++ next.block.vtx := by
    simp [chainTransactions]
  have nextHeight : tip.nHeight + 1 = ((blocks.length + 1 : Nat) : Int) := by
    rw [chain.height]
    rfl
  obtain ⟨_, contextual, afterContextual⟩ := bind_eq_ok.mp success
  obtain ⟨connected, connects, returned⟩ := bind_eq_ok.mp afterContextual
  cases returned
  obtain ⟨coinbase, rest, state, checked, body, view, _, supply⟩ := connectBlock_body connects next.notGenesis
  rw [transactions] at injective
  obtain ⟨carries, new⟩ := chain.coinbase_new contextual checked injective fits
  obtain ⟨history, value, minted⟩ := connectBody_supply body checked chain.history injective
    (fun _ _ => UtxoSet.getCoins_empty _) new
  have burned : burnedValue (chainTransactions blocks ++ next.block.vtx) =
      burnedValue (chainTransactions blocks) + burnedValue next.block.vtx := by
    simp [burnedValue]
  have before := chain.supply
  have limit := chain.bounded
  have subsidies : subsidySum (blocks ++ [next]).length =
      subsidySum blocks.length + getBlockSubsidy ((blocks.length : Int) + 1) := by
    rw [length_append]
    rfl
  refine ⟨?_, ?_, ?_, ?_, ?_⟩
  · rw [transactions, view]
    exact history
  · rw [length_append]
    exact nextHeight
  · intro tx member isCoinbase
    rw [transactions] at member
    rcases mem_append.mp member with old | here
    · obtain ⟨height, positive, within, oldCarries⟩ := chain.coinbases tx old isCoinbase
      refine ⟨height, positive, ?_, oldCarries⟩
      rw [length_append]
      omega
    · rw [checked.vtx] at here
      rcases mem_cons.mp here with rfl | later
      · refine ⟨blocks.length + 1, Nat.succ_pos _, ?_, carries⟩
        rw [length_append]
        exact Nat.le_refl _
      · rw [checked.others tx later] at isCoinbase
        cases isCoinbase
  · rw [supply]
    simp only [nextIndex]
    lia
  · rw [supply]
    have sameHeight : (tip.nextIndex next).nHeight = (blocks.length : Int) + 1 := by
      rw [nextIndex, chain.height]
    rw [sameHeight] at minted
    simp only [nextIndex]
    lia

/-- Further blocks keep the supply accounted for. -/
theorem ChainOk.connectChain {later : List NextBlock} (chain : ChainOk getHash blocks tip)
    (success : connectChain getHash tip later = .ok final)
    (injective : IdsInjective getHash (chainTransactions (blocks ++ later))) (fits : (blocks ++ later).length < 2 ^ 31)
    : ChainOk getHash (blocks ++ later) final := by
  induction later generalizing blocks tip with
  | nil =>
    cases success
    rw [append_nil]
    exact chain
  | cons next rest ih =>
    obtain ⟨middle, step, further⟩ := bind_eq_ok.mp success
    have together : (blocks ++ [next]) ++ rest = blocks ++ next :: rest := by simp
    have shorter : ∀ tx ∈ chainTransactions (blocks ++ [next]), tx ∈ chainTransactions (blocks ++ next :: rest) := by
      intro tx member
      rw [← together, chainTransactions, flatMap_append]
      exact mem_append_left _ member
    have injectiveHere : IdsInjective getHash (chainTransactions (blocks ++ [next])) :=
      fun left leftMember right rightMember =>
        injective left (shorter left leftMember) right (shorter right rightMember)
    have fitsHere : blocks.length + 1 < 2 ^ 31 := by
      simp only [length_append, length_cons] at fits
      omega
    have extended := chain.connect step injectiveHere fitsHere
    rw [← together] at injective fits ⊢
    exact ih extended further injective fits

/-- After every chain of connected blocks the money supply of the tip is the value of all unspent and of all provably
unspendable outputs ever created, and the subsidies of the connected heights bound it. -/
theorem moneySupply_conserved (getHash : CTransaction → Uint256) (hashGenesisBlock : Uint256)
    (blocks : List NextBlock) (tip : ChainTip)
    (connected : Straks.Chain.connectChain getHash (genesis hashGenesisBlock) blocks = .ok tip)
    (injective : IdsInjective getHash (chainTransactions blocks)) (fits : blocks.length < 2 ^ 31) :
    tip.nMoneySupply = tip.view.utxo.value + burnedValue (chainTransactions blocks) ∧
      tip.nMoneySupply ≤ subsidySum blocks.length ∧ ∀ height, subsidySum height ≤ maxMoney := by
  have chain := (ChainOk.genesis getHash hashGenesisBlock).connectChain connected injective fits
  exact ⟨chain.supply, chain.bounded, subsidySum_le_maxMoney⟩

/-- The coinbase of height one: spendable, burned and treasury outputs. -/
def firstCoinbase : CTransaction :=
  ⟨1, [⟨⟨0, 0xffffffff⟩, [0x51, 0x00], 0xffffffff, []⟩],
    [⟨41249999 * coin, [0x51]⟩, ⟨coin, [0x6a]⟩, ⟨0, [0x87]⟩], 0⟩

/-- A node on which every outside check succeeds. -/
def lenientEnv : BlockEnv where
  params := getConsensus .main
  getBlockHash := fun _ => 1
  hashGenesisBlock := 0
  checkProofOfWork := fun _ => true
  blockMerkleRoot := fun _ => (0, false)
  legacySigOpCount := fun _ => 0
  sigOpCost := fun _ _ => 0
  sequenceLocks := fun _ _ => true
  scriptsVerify := fun _ _ => true
  nLockTimeCutoff := 0
  contextualWitnessRules := fun _ => .ok ()
  fSegwitSeasoned := false
  missesSegwitSignal := false
  unknownBIP34Ancestor := false
  tip := none
  isInitialBlockDownload := false
  treasuryRewardScript := fun _ => [0x87]
  treasuryShare := fun value => value / 20
  aboveMasternodeLimit := fun paid value => decide (5 * paid > 3 * value)
  getBlockPayee := fun _ => none
  getMasternodePayment := fun _ _ => 0

def firstBlock : NextBlock where
  network := .main
  env := lenientEnv
  block := ⟨⟨1, 0, 0, 0, 1, 0⟩, [firstCoinbase]⟩
  onNetwork := rfl
  notGenesis := by decide

/-- The block at height one connects, its supply accounted for. -/
theorem moneySupply_conserved_first : ∃ tip, connectChain (fun _ => 1) (genesis 0) [firstBlock] = .ok tip ∧
      tip.nMoneySupply = 41250000 * coin ∧
      tip.nMoneySupply = tip.view.utxo.value + burnedValue (chainTransactions [firstBlock]) ∧
      tip.nMoneySupply ≤ subsidySum 1 := by
  obtain ⟨tip, connected⟩ : ∃ tip, connectChain (fun _ => 1) (genesis 0) [firstBlock] = .ok tip := ⟨_, rfl⟩
  have injective : IdsInjective (fun _ => 1) (chainTransactions [firstBlock]) := by
    intro left leftMember right rightMember _
    rw [mem_singleton.mp leftMember, mem_singleton.mp rightMember]
  obtain ⟨supply, bounded, _⟩ := moneySupply_conserved (fun _ => 1) 0 [firstBlock] tip connected injective (by decide)
  refine ⟨tip, connected, ?_, supply, bounded⟩
  cases connected
  rfl

end Straks.Chain
