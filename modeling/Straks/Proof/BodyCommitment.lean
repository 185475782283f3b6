import Straks.Construction.Chain.WitnessRules
import Straks.Proof.MerkleRoot
import Straks.Proof.MoneySupply

namespace Straks.Chain
open MerkleTree Script Success List Function CTransaction CTxIn

section Stripped

variable (tx : CTransaction)

@[simp] theorem vout_withoutWitness : tx.withoutWitness.vout = tx.vout := rfl

@[simp] theorem baseSize_withoutWitness : baseSize tx.withoutWitness = baseSize tx := by
  simp [baseSize, withoutWitness, comp_def]

@[simp] theorem getLegacySigOpCount_withoutWitness : getLegacySigOpCount tx.withoutWitness = getLegacySigOpCount tx := by
  simp [getLegacySigOpCount, withoutWitness, comp_def]

@[simp] theorem isFinalTx_withoutWitness (nHeight nTime : Int) :
    isFinalTx tx.withoutWitness nHeight nTime = isFinalTx tx nHeight nTime := by
  rw [isFinalTx, withoutWitness, all_map]
  rfl

@[simp] theorem checkTransaction_withoutWitness (fCheckDuplicateInputs : Bool) :
    checkTransaction tx.withoutWitness fCheckDuplicateInputs = checkTransaction tx fCheckDuplicateInputs := by
  have forms : checkInputForms tx.withoutWitness = checkInputForms tx := by
    rw [checkInputForms, checkInputForms, isCoinBase_withoutWitness]
    simp [withoutWitness, comp_def]
  rw [checkTransaction, checkTransaction, forms, baseSize_withoutWitness]
  simp [withoutWitness, comp_def]

end Stripped

/-- The block as its header commits to it, without witnesses. -/
def stripped (block : CBlock) : CBlock := { block with vtx := block.vtx.map withoutWitness }

section StrippedBlock

variable (block : CBlock)

@[simp] theorem coinbaseOutputs_stripped : coinbaseOutputs (stripped block) = coinbaseOutputs block := by
  simp [coinbaseOutputs, stripped, comp_def]

@[simp] theorem blockBaseSize_stripped : blockBaseSize (stripped block) = blockBaseSize block := by
  simp [blockBaseSize, stripped, comp_def]

@[simp] theorem startsWithHeight_stripped (nHeight : Int) :
    startsWithHeight (stripped block) nHeight = startsWithHeight block nHeight := by
  rw [startsWithHeight, startsWithHeight, stripped]
  rcases block.vtx with _ | ⟨coinbase, rest⟩
  · rfl
  · rcases coinbase with ⟨nVersion, _ | ⟨txin, others⟩, vout, nLockTime⟩ <;> rfl

variable (env : BlockEnv)

@[simp] theorem checkBlockPayment_stripped :
    checkBlockPayment env (stripped block) = checkBlockPayment env block := by
  simp only [checkBlockPayment, coinbaseOutputs_stripped]
  rfl

@[simp] theorem getWitnessCommitmentIndex_stripped :
    getWitnessCommitmentIndex (stripped block) = getWitnessCommitmentIndex block := by
  rw [getWitnessCommitmentIndex, coinbaseOutputs_stripped, getWitnessCommitmentIndex]

theorem checkCoinbases_stripped (vtx : List CTransaction) :
    checkCoinbases (vtx.map withoutWitness) = checkCoinbases vtx := by
  cases vtx with
  | nil => rfl
  | cons coinbase rest => simp [checkCoinbases, isCoinBase_withoutWitness, comp_def]

theorem checkTransactions_stripped (vtx : List CTransaction) :
    checkTransactions (vtx.map withoutWitness) = checkTransactions vtx := by
  induction vtx with
  | nil => rfl
  | cons tx rest ih => rw [map_cons, checkTransactions, checkTransactions, ih, checkTransaction_withoutWitness]

/-- The rules of `CheckBlock` that come after the Merkle root. -/
def checkBody (block : CBlock) : Except BlockError Unit :=
  if block.vtx.isEmpty ∨ block.vtx.length > maxBlockVtx ∨
      blockBaseSize block * witnessScaleFactor > maxBlockSerializedSize then .error (dos 100 "bad-blk-length")
  else do
    checkCoinbases block.vtx
    checkBlockPayment env block
    checkTransactions block.vtx
    if (block.vtx.map env.legacySigOpCount).sum * witnessScaleFactor > maxBlockSigOpsCost true then
      .error (dos 100 "bad-blk-sigops")
    else .ok ()

theorem checkBlock_eq : checkBlock env block true true =
      if !env.checkProofOfWork block.toCBlockHeader then .error (dos 50 "high-hash")
      else checkMerkleRoot env block true >>= fun _ => checkBody env block := rfl

/-- The rest of `CheckBlock` does not read witnesses. -/
theorem checkBody_stripped (legacy : env.legacySigOpCount = getLegacySigOpCount) :
    checkBody env (stripped block) = checkBody env block := by
  have count : (stripped block).vtx.map env.legacySigOpCount = block.vtx.map env.legacySigOpCount := by
    simp [stripped, legacy, comp_def]
  rw [checkBody, checkBody, blockBaseSize_stripped, checkBlockPayment_stripped, count]
  simp only [stripped, isEmpty_map, length_map, checkCoinbases_stripped, checkTransactions_stripped]

/-- `ContextualCheckBlock` reads no witnesses before the witness rules. -/
theorem contextualCheckBlock_eq {env : BlockEnv} {block other : CBlock} {nHeight : Int}
    (same : stripped block = stripped other) (good : contextualCheckBlock env block nHeight = .ok ()) :
    contextualCheckBlock env other nHeight = env.contextualWitnessRules other ∧
      env.contextualWitnessRules block = .ok () := by
  have final : (block.vtx.any fun tx => !isFinalTx tx nHeight env.nLockTimeCutoff) =
      other.vtx.any fun tx => !isFinalTx tx nHeight env.nLockTimeCutoff := by
    have lists := congrArg (fun block : CBlock => block.vtx.any fun tx => !isFinalTx tx nHeight env.nLockTimeCutoff) same
    simpa [stripped, comp_def] using lists
  have height : startsWithHeight block nHeight = startsWithHeight other nHeight := by
    rw [← startsWithHeight_stripped, same, startsWithHeight_stripped]
  rw [contextualCheckBlock, final, height] at good
  rw [contextualCheckBlock]
  split at good
  · cases good
  · rename_i allFinal
    rw [if_neg allFinal]
    split_ifs at good with atHeight
    exact ⟨if_neg atHeight, good⟩

end StrippedBlock

/-- The word of a 32-byte nonce determines the nonce. -/
theorem nonce_injective {first second : List UInt8} (firstLength : first.length = 32) (secondLength : second.length = 32)
    (equal : BitVec.ofNat 256 (readLE first) = BitVec.ofNat 256 (readLE second)) : first = second := by
  have width : 256 ^ 32 = 2 ^ 256 := by norm_num
  have firstBound := firstLength ▸ readLE_lt first
  have secondBound := secondLength ▸ readLE_lt second
  rw [width] at firstBound secondBound
  have values := congrArg BitVec.toNat equal
  rw [BitVec.toNat_ofNat, BitVec.toNat_ofNat, Nat.mod_eq_of_lt firstBound, Nat.mod_eq_of_lt secondBound] at values
  exact readLE_injective (firstLength.trans secondLength.symm) values

variable (hashes : BlockHashes)

/-- The leaves of the witness tree. -/
def witnessLeaves (block : CBlock) : List Uint256 := (block.vtx.map hashes.getWitnessHash).set 0 0

/-- The pairs hashed for the witness commitment. -/
def witnessPairs (block : CBlock) : List (Uint256 × Uint256) :=
  hashedPairs hashes.hashPair (witnessLeaves hashes block) ++ (coinbaseWitness block).map fun nonce =>
    ((blockWitnessMerkleRoot hashes.hashPair hashes.getWitnessHash block.vtx).1, BitVec.ofNat 256 (readLE nonce))

/-- The pairs that are hashed for the Merkle root of a block. -/
def rootPairs (block : CBlock) : List (Uint256 × Uint256) :=
  hashedPairs hashes.hashPair (block.vtx.map hashes.getHash)

/-- The hashes tell apart what the two blocks feed them, and no node hash is a transaction's. -/
structure HashesSeparate (block other : CBlock) : Prop where
  ids : ∀ tx ∈ block.vtx, ∀ tx' ∈ other.vtx, hashes.getHash tx = hashes.getHash tx' → tx.withoutWitness = tx'.withoutWitness
  witnessIds : ∀ tx ∈ block.vtx, ∀ tx' ∈ other.vtx, hashes.getWitnessHash tx = hashes.getWitnessHash tx' → tx = tx'
  pairs : Set.InjOn (Function.uncurry hashes.hashPair)
    { pair | pair ∈ rootPairs hashes block ++ rootPairs hashes other ++ (witnessPairs hashes block ++ witnessPairs hashes other) }
  leaves : ∀ pair ∈ rootPairs hashes block ++ rootPairs hashes other,
    Function.uncurry hashes.hashPair pair ∉ block.vtx.map hashes.getHash ++ other.vtx.map hashes.getHash

section Bodies

variable {hashes : BlockHashes} {block other : CBlock}

theorem map_eq_of_separate {α β γ : Type} {f : α → β} {g : α → γ} {first second : List α}
    (separate : ∀ x ∈ first, ∀ y ∈ second, f x = f y → g x = g y) (equal : first.map f = second.map f) :
    first.map g = second.map g := by
  induction first generalizing second with
  | nil =>
    rw [map_nil, eq_comm, map_eq_nil_iff] at equal
    rw [equal]
  | cons x rest ih =>
    cases second with
    | nil => cases equal
    | cons y others =>
      rw [map_cons, map_cons, List.cons.injEq] at equal
      rw [map_cons, map_cons, separate x (.head _) y (.head _) equal.1,
        ih (fun x inRest y inOthers => separate x (.tail _ inRest) y (.tail _ inOthers)) equal.2]

/-- Unmutated bodies with one root hold the same transactions, witnesses aside. -/
theorem stripped_eq_of_root (separate : HashesSeparate hashes block other)
    (same : other.toCBlockHeader = block.toCBlockHeader) (someBlock : block.vtx ≠ []) (someOther : other.vtx ≠ [])
    (equal : (blockMerkleRoot hashes.hashPair hashes.getHash block.vtx).1 =
      (blockMerkleRoot hashes.hashPair hashes.getHash other.vtx).1)
    (cleanBlock : (blockMerkleRoot hashes.hashPair hashes.getHash block.vtx).2 = false)
    (cleanOther : (blockMerkleRoot hashes.hashPair hashes.getHash other.vtx).2 = false) :
    stripped block = stripped other := by
  have someLeft : block.vtx.map hashes.getHash ≠ [] := by simpa using someBlock
  have someRight : other.vtx.map hashes.getHash ≠ [] := by simpa using someOther
  obtain ⟨rootLeft, mutatedLeft⟩ := computeMerkleRoot_spec hashes.hashPair someLeft
  obtain ⟨rootRight, mutatedRight⟩ := computeMerkleRoot_spec hashes.hashPair someRight
  rw [blockMerkleRoot, ← Bool.not_eq_true, mutatedLeft] at cleanBlock
  rw [blockMerkleRoot, ← Bool.not_eq_true, mutatedRight] at cleanOther
  rw [blockMerkleRoot, blockMerkleRoot, rootLeft, rootRight] at equal
  have leaves := root_injective (separate.pairs.mono (fun pair => mem_append_left _))
    (fun _ => mem_append_left _) (fun _ => mem_append_right _) someLeft someRight separate.leaves cleanBlock
    cleanOther equal
  rw [stripped, stripped, map_eq_of_separate separate.ids leaves, same]

/-- The coinbase of an active block carries a commitment. -/
def commits (segwit : SegwitState) (block : CBlock) : Bool :=
  segwit.fSegWitActive && (getWitnessCommitmentIndex block).isSome

/-- What a block that passes the commitment check has shown. -/
structure Committed (hashes : BlockHashes) (block : CBlock) (commitment nonce : List UInt8) : Prop where
  witness : coinbaseWitness block = [nonce]
  length : nonce.length = 32
  hash : littleEndian 32 (hashes.hashPair (blockWitnessMerkleRoot hashes.hashPair hashes.getWitnessHash block.vtx).1
    (BitVec.ofNat 256 (readLE nonce))).toNat = commitment

/-- The bytes the commitment of the coinbase shows. -/
def commitment (block : CBlock) : List UInt8 :=
  ((((getWitnessCommitmentIndex block).bind fun commitpos => (coinbaseOutputs block)[commitpos]?).map
    CTxOut.scriptPubKey).getD []).drop 6 |>.take 32

/-- The commitment check fails as corrupted data or tells whether a matching commitment exists. -/
theorem checkWitnessCommitment_cases (hashes : BlockHashes) (segwit : SegwitState) (block : CBlock) :
    (∃ reason, checkWitnessCommitment hashes segwit block = .error (corrupted reason)) ∨
      checkWitnessCommitment hashes segwit block = .ok (commits segwit block) ∧
        (commits segwit block = true → ∃ nonce, Committed hashes block (commitment block) nonce) := by
  rw [checkWitnessCommitment]
  cases active : segwit.fSegWitActive with
  | false => exact .inr (by simp [commits, active])
  | true =>
    cases index : getWitnessCommitmentIndex block with
    | none => exact .inr (by simp [commits, index])
    | some commitpos =>
      simp only [Bool.not_true, Bool.false_eq_true, if_false]
      rcases witness : coinbaseWitness block with _ | ⟨nonce, _ | ⟨second, rest⟩⟩
      · exact .inl ⟨_, rfl⟩
      · simp only
        split
        · exact .inl ⟨_, rfl⟩
        · rename_i length
          split
          · exact .inl ⟨_, rfl⟩
          · rename_i hash
            refine .inr ⟨by simp [commits, active, index], fun _ => ⟨nonce, witness, not_not.mp length, ?_⟩⟩
            rw [commitment, index]
            exact not_not.mp hash
      · exact .inl ⟨_, rfl⟩

theorem hasWitness_eq_false {tx : CTransaction} (none : hasWitness tx = false) : tx.withoutWitness = tx := by
  have inputs : (tx.vin.map fun txin => { txin with scriptWitness := [] }) = tx.vin := by
    rw [hasWitness, any_eq_false] at none
    conv_rhs => rw [← map_id tx.vin]
    apply map_congr_left
    intro txin member
    have empty := none txin member
    simp only [Bool.not_eq_true, Bool.not_eq_false', List.isEmpty_iff] at empty
    rw [id, ← empty]
  rw [withoutWitness, inputs]

theorem eq_of_no_witness (same : stripped block = stripped other) (noneBlock : block.vtx.any hasWitness = false)
    (noneOther : other.vtx.any hasWitness = false) : block = other := by
  have unchanged {block : CBlock} (none : block.vtx.any hasWitness = false) : stripped block = block := by
    rw [any_eq_false] at none
    have list : block.vtx.map withoutWitness = block.vtx := by
      conv_rhs => rw [← map_id block.vtx]
      exact map_congr_left fun tx member => hasWitness_eq_false (by simpa using none tx member)
    rw [stripped, list]
  rw [← unchanged noneBlock, same, unchanged noneOther]

variable {coinbase : CTransaction} {rest : List CTransaction}

/-- A coinbase is determined by its rest and its witness. -/
theorem coinbase_eq {other : CTransaction} (isCoinBase : coinbase.isCoinBase = true)
    (same : coinbase.withoutWitness = other.withoutWitness)
    (witness : (coinbase.vin.head?.map scriptWitness) = other.vin.head?.map scriptWitness) : coinbase = other := by
  rcases coinbase with ⟨nVersion, _ | ⟨txin, _ | ⟨second, rest⟩⟩, vout, nLockTime⟩
  · cases isCoinBase
  · rcases other with ⟨nVersion', _ | ⟨txin', _ | ⟨second', rest'⟩⟩, vout', nLockTime'⟩ <;>
      simp only [withoutWitness, map_cons, map_nil, CTransaction.mk.injEq, List.cons.injEq,
        CTxIn.mk.injEq, head?_cons, Option.map_some, Option.some.injEq, reduceCtorEq, false_and, and_false,
        and_true] at same witness
    obtain ⟨rfl, ⟨prevout, scriptSig, nSequence⟩, rfl, rfl⟩ := same
    rcases txin with ⟨_, _, _, _⟩
    rcases txin' with ⟨_, _, _, _⟩
    simp only at prevout scriptSig nSequence witness
    rw [prevout, scriptSig, nSequence, witness]
  · cases isCoinBase

theorem hashBytes_injective {first second : Uint256}
    (equal : littleEndian 32 first.toNat = littleEndian 32 second.toNat) : first = second := by
  have values := congrArg readLE equal
  have width : 256 ^ 32 = 2 ^ 256 := by norm_num
  rw [readLE_littleEndian, readLE_littleEndian, width, Nat.mod_eq_of_lt first.isLt, Nat.mod_eq_of_lt second.isLt] at values
  exact BitVec.eq_of_toNat_eq values

variable {nonce : List UInt8} {segwit : SegwitState} {error : BlockError}

theorem witness_of_single (vtx : block.vtx = coinbase :: rest) (single : coinbaseWitness block = [nonce]) :
    coinbase.vin.head?.map scriptWitness = some [nonce] := by
  rw [coinbaseWitness, vtx, head?_cons, Option.bind_some] at single
  cases inputs : coinbase.vin.head? with
  | none =>
    rw [inputs] at single
    cases single
  | some txin =>
    rw [inputs] at single
    exact congrArg some single

/-- Bodies that match one commitment are the same, witnesses included. -/
theorem eq_of_committed (separate : HashesSeparate hashes block other) (same : stripped block = stripped other)
    (vtx : block.vtx = coinbase :: rest) (isCoinBase : coinbase.isCoinBase = true) {shown nonce' : List UInt8}
    (committed : Committed hashes block shown nonce) (committed' : Committed hashes other shown nonce') :
    block = other := by
  obtain ⟨header, bodies⟩ := CBlock.mk.inj same
  rw [vtx] at bodies
  obtain ⟨coinbase', rest', vtx', first, later⟩ := map_eq_cons_iff.mp bodies.symm
  have pairs := separate.pairs.mono (fun pair => mem_append_right (rootPairs hashes block ++ rootPairs hashes other))
  have hashed := hashBytes_injective (committed.hash.trans committed'.hash.symm)
  rw [pair_eq_iff pairs (mem_append_left _ (mem_append_right _ (by simp [committed.witness])))
    (mem_append_right _ (mem_append_right _ (by simp [committed'.witness])))] at hashed
  obtain ⟨roots, nonces⟩ := hashed
  have witness : coinbase.vin.head?.map scriptWitness = coinbase'.vin.head?.map scriptWitness := by
    rw [witness_of_single vtx committed.witness, witness_of_single vtx' committed'.witness,
      nonce_injective committed.length committed'.length nonces]
  have leaves : witnessLeaves hashes block = witnessLeaves hashes other := by
    have some : witnessLeaves hashes block ≠ [] := by simp [witnessLeaves, vtx]
    have some' : witnessLeaves hashes other ≠ [] := by simp [witnessLeaves, vtx']
    have length : (witnessLeaves hashes block).length = (witnessLeaves hashes other).length := by
      have lengths := congrArg List.length bodies
      simp only [length_cons, length_map] at lengths
      simp [witnessLeaves, vtx, lengths]
    apply root_injective_of_length pairs _ _ some length
    · rw [← (computeMerkleRoot_spec _ some).1, ← (computeMerkleRoot_spec _ some').1]
      exact roots
    · exact fun pair member => mem_append_left _ (mem_append_left _ member)
    · exact fun pair member => mem_append_right _ (mem_append_left _ member)
  have others : rest.map id = rest'.map id := by
    have separated := separate.witnessIds
    simp only [witnessLeaves, vtx, vtx', map_cons, set_cons_zero, List.cons.injEq, true_and] at leaves separated
    exact map_eq_of_separate (fun tx member tx' member' => separated tx (.tail _ member) tx' (.tail _ member')) leaves
  rw [map_id, map_id] at others
  have list : block.vtx = other.vtx := by rw [vtx, vtx', others, coinbase_eq isCoinBase first.symm witness]
  exact congrArg₂ CBlock.mk header list

theorem commits_eq (segwit : SegwitState) (same : stripped block = stripped other) :
    commits segwit block = commits segwit other ∧ commitment block = commitment other := by
  have index : getWitnessCommitmentIndex block = getWitnessCommitmentIndex other := by
    rw [← getWitnessCommitmentIndex_stripped, same, getWitnessCommitmentIndex_stripped]
  have outputs : coinbaseOutputs block = coinbaseOutputs other := by
    rw [← coinbaseOutputs_stripped, same, coinbaseOutputs_stripped]
  exact ⟨by rw [commits, commits, index], by rw [commitment, commitment, index, outputs]⟩

/-- A body without commitment fails only by its witnesses. -/
theorem checkWitnessRules_uncommitted (same : stripped block = stripped other)
    (passed : checkWitnessCommitment hashes segwit block = .ok false)
    (passed' : checkWitnessCommitment hashes segwit other = .ok false)
    (good : checkWitnessRules hashes segwit block = .ok ())
    (fails : checkWitnessRules hashes segwit other = .error error) : error = corrupted "unexpected-witness" := by
  have size : blockBaseSize block = blockBaseSize other := by
    rw [← blockBaseSize_stripped, same, blockBaseSize_stripped]
  have rules := good
  rw [checkWitnessRules, passed] at rules
  have failed := fails
  rw [checkWitnessRules, passed', ← size] at failed
  simp only [bind, Except.bind, Bool.not_false, Bool.true_and] at rules failed
  split at rules
  · cases rules
  · rename_i short
    rw [if_neg short] at failed
    split at rules
    · cases rules
    · rename_i large
      rw [if_neg large] at failed
      split_ifs at rules with none
      split at failed
      · cases failed
        rfl
      · rename_i none'
        rw [eq_of_no_witness same (by simpa using none) (by simpa using none'), fails] at good
        cases good

/-- A body failing the witness rules another one of the same committed part passes fails as corrupted. -/
theorem checkWitnessRules_corrupted (separate : HashesSeparate hashes block other)
    (same : stripped block = stripped other) (vtx : block.vtx = coinbase :: rest)
    (isCoinBase : coinbase.isCoinBase = true) (good : checkWitnessRules hashes segwit block = .ok ())
    (fails : checkWitnessRules hashes segwit other = .error error) : ∃ reason, error = corrupted reason := by
  obtain ⟨both, shown⟩ := commits_eq segwit same
  rcases checkWitnessCommitment_cases hashes segwit block with ⟨reason, failed⟩ | ⟨passed, committed⟩
  · rw [checkWitnessRules, failed] at good
    cases good
  · rcases checkWitnessCommitment_cases hashes segwit other with ⟨reason, failed⟩ | ⟨passed', committed'⟩
    · rw [checkWitnessRules, failed] at fails
      cases fails
      exact ⟨reason, rfl⟩
    · rw [← both] at passed' committed'
      cases commit : commits segwit block with
      | false =>
        rw [commit] at passed passed'
        exact ⟨_, checkWitnessRules_uncommitted same passed passed' good fails⟩
      | true =>
        obtain ⟨nonce, first⟩ := committed commit
        obtain ⟨nonce', second⟩ := committed' commit
        rw [← shown] at second
        rw [eq_of_committed separate same vtx isCoinBase first second, fails] at good
        cases good

end Bodies

theorem checkMerkleRoot_cases (env : BlockEnv) (block : CBlock) :
    (∃ reason, checkMerkleRoot env block true = .error (corrupted reason)) ∨
      checkMerkleRoot env block true = .ok () ∧ block.hashMerkleRoot = (env.blockMerkleRoot block.vtx).1 ∧
        (env.blockMerkleRoot block.vtx).2 = false := by
  rw [checkMerkleRoot, if_neg (by simp)]
  split
  · exact .inl ⟨_, rfl⟩
  · rename_i root
    split
    · exact .inl ⟨_, rfl⟩
    · rename_i clean
      exact .inr ⟨rfl, not_not.mp root, by simpa using clean⟩

/-- A body that `CheckBlock` passes has the root of its header. -/
theorem checkBlock_root {env : BlockEnv} {block : CBlock} (good : checkBlock env block true true = .ok ()) :
    env.checkProofOfWork block.toCBlockHeader = true ∧ block.hashMerkleRoot = (env.blockMerkleRoot block.vtx).1 ∧
      (env.blockMerkleRoot block.vtx).2 = false ∧ checkBody env block = .ok () := by
  rw [checkBlock_eq] at good
  split_ifs at good with pow
  rcases checkMerkleRoot_cases env block with ⟨reason, failed⟩ | ⟨passed, root, clean⟩
  · rw [failed] at good
    cases good
  · rw [passed] at good
    exact ⟨by simpa using pow, root, clean, good⟩

section Accept

variable {env : BlockEnv} {hashes : BlockHashes} {segwit : SegwitState} {block other : CBlock} {nHeight : Int}
  {error : BlockError}

/-- A body under a good block's header has a wrong or mutated root, or the same committed part. -/
theorem checkBlock_same_body (separate : HashesSeparate hashes block other)
    (good : checkBlock (env.withBodyRules hashes segwit) block true true = .ok ())
    (same : other.toCBlockHeader = block.toCBlockHeader) (nonzero : block.hashMerkleRoot ≠ 0) :
    (∃ reason, checkBlock (env.withBodyRules hashes segwit) other true true = .error (corrupted reason)) ∨
      checkBlock (env.withBodyRules hashes segwit) other true true = .ok () ∧ stripped block = stripped other := by
  obtain ⟨pow, root, clean, body⟩ := checkBlock_root good
  have header : other.hashMerkleRoot = block.hashMerkleRoot := congrArg CBlockHeader.hashMerkleRoot same
  rw [checkBlock_eq, same, if_neg (by simp [pow])]
  rcases checkMerkleRoot_cases (env.withBodyRules hashes segwit) other with ⟨reason, failed⟩ | ⟨passed, root', clean'⟩
  · rw [failed]
    exact .inl ⟨reason, rfl⟩
  · rw [passed]
    have someBlock : block.vtx ≠ [] := by
      intro none
      rw [none] at root
      exact nonzero root
    have someOther : other.vtx ≠ [] := by
      intro none
      rw [none] at root'
      exact nonzero (header.symm.trans root')
    have bodies := stripped_eq_of_root separate same someBlock someOther (root.symm.trans (header.symm.trans root')) clean
      clean'
    refine .inr ⟨?_, bodies⟩
    show checkBody (env.withBodyRules hashes segwit) other = .ok ()
    rw [← checkBody_stripped other _ rfl, ← bodies, checkBody_stripped block _ rfl, body]

theorem acceptChecks_corrupted (separate : HashesSeparate hashes block other)
    (good : acceptChecks (env.withBodyRules hashes segwit) block nHeight = .ok ())
    (same : other.toCBlockHeader = block.toCBlockHeader) (nonzero : block.hashMerkleRoot ≠ 0)
    (fails : acceptChecks (env.withBodyRules hashes segwit) other nHeight = .error error) :
    ∃ reason, error = corrupted reason := by
  obtain ⟨_, checked, context⟩ := bind_eq_ok.mp good
  obtain ⟨coinbase, rest, body⟩ := checkBlock_checked checked
  rw [acceptChecks] at fails
  rcases checkBlock_same_body separate checked same nonzero with ⟨reason, failed⟩ | ⟨passed, bodies⟩
  · rw [failed] at fails
    cases fails
    exact ⟨reason, rfl⟩
  · obtain ⟨context', rules⟩ := contextualCheckBlock_eq bodies context
    rw [passed] at fails
    rw [context'] at fails
    exact checkWitnessRules_corrupted separate bodies body.vtx body.coinbase rules fails

end Accept

/-- A body that fails the checks of `AcceptBlock`, under a header with a nonzero Merkle root some body passes with,
fails as possibly corrupted, and the header is not marked. -/
theorem acceptChecks_never_condemn (env : BlockEnv) (hashes : BlockHashes) (segwit : SegwitState) (block other : CBlock)
    (nHeight : Int) (separate : HashesSeparate hashes block other)
    (good : acceptChecks (env.withBodyRules hashes segwit) block nHeight = .ok ())
    (same : other.toCBlockHeader = block.toCBlockHeader) (nonzero : block.hashMerkleRoot ≠ 0) (error : BlockError)
    (fails : acceptChecks (env.withBodyRules hashes segwit) other nHeight = .error error) :
    (∃ reject, error = .reject reject ∧ reject.corruptionPossible = true) ∧
      marksInvalid (acceptChecks (env.withBodyRules hashes segwit) other nHeight) = false := by
  obtain ⟨reason, rfl⟩ := acceptChecks_corrupted separate good same nonzero fails
  rw [fails]
  exact ⟨⟨_, rfl, rfl⟩, rfl⟩

/-- A block with the coinbase of height one and that root. -/
def singleBlock (hashMerkleRoot : Uint256) (coinbase : CTransaction) : CBlock :=
  ⟨⟨1, 0, hashMerkleRoot, 0, 1, 0⟩, [coinbase]⟩

/-- A stand-in giving every transaction one id, enough for one transaction. -/
def constantHashes (txid : Uint256) : BlockHashes := ⟨fun _ => txid, fun _ => 7, joinedWords⟩

def segwitInactive : SegwitState := ⟨false, false, false⟩

/-- The first coinbase with a witness that nothing commits to. -/
def witnessCoinbase : CTransaction :=
  { firstCoinbase with vin := firstCoinbase.vin.map fun txin => { txin with scriptWitness := [[1]] } }

theorem acceptChecks_never_condemn_first :
    acceptChecks (lenientEnv.withBodyRules (constantHashes 5) segwitInactive) (singleBlock 5 firstCoinbase) 1 = .ok () ∧
      acceptChecks (lenientEnv.withBodyRules (constantHashes 5) segwitInactive) (singleBlock 5 witnessCoinbase) 1 =
        .error (corrupted "unexpected-witness") ∧
      marksInvalid (acceptChecks (lenientEnv.withBodyRules (constantHashes 5) segwitInactive)
        (singleBlock 5 witnessCoinbase) 1) = false := by
  have good : acceptChecks (lenientEnv.withBodyRules (constantHashes 5) segwitInactive) (singleBlock 5 firstCoinbase) 1 =
    .ok () := rfl
  have fails : acceptChecks (lenientEnv.withBodyRules (constantHashes 5) segwitInactive)
    (singleBlock 5 witnessCoinbase) 1 = .error (corrupted "unexpected-witness") := rfl
  have separate : HashesSeparate (constantHashes 5) (singleBlock 5 firstCoinbase) (singleBlock 5 witnessCoinbase) := by
    constructor
    · simp only [singleBlock, mem_singleton]
      rintro _ rfl _ rfl _
      rfl
    · simp only [singleBlock, mem_singleton]
      rintro _ rfl _ rfl equal
      exact absurd equal (by decide)
    · intro first inFirst second inSecond _
      replace inFirst : first ∈ [((0 : Uint256), (1 : Uint256))] := inFirst
      replace inSecond : second ∈ [((0 : Uint256), (1 : Uint256))] := inSecond
      rw [mem_singleton.mp inFirst, mem_singleton.mp inSecond]
    · intro pair member
      cases member
  exact ⟨good, fails, (acceptChecks_never_condemn _ _ _ _ _ 1 separate good rfl (by decide) _ fails).2⟩

/-- Under a zero Merkle root an empty body condemns the header. -/
theorem acceptChecks_condemn_zero_root :
    HashesSeparate (constantHashes 0) (singleBlock 0 firstCoinbase) { singleBlock 0 firstCoinbase with vtx := [] } ∧
      acceptChecks (lenientEnv.withBodyRules (constantHashes 0) segwitInactive) (singleBlock 0 firstCoinbase) 1 = .ok () ∧
      acceptChecks (lenientEnv.withBodyRules (constantHashes 0) segwitInactive)
        { singleBlock 0 firstCoinbase with vtx := [] } 1 = .error (dos 100 "bad-blk-length") ∧
      marksInvalid (acceptChecks (lenientEnv.withBodyRules (constantHashes 0) segwitInactive)
        { singleBlock 0 firstCoinbase with vtx := [] } 1) = true := by
  refine ⟨⟨?_, ?_, ?_, ?_⟩, rfl, rfl, rfl⟩
  · intro tx _ tx' member
    cases member
  · intro tx _ tx' member
    cases member
  · intro first inFirst
    cases inFirst
  · intro pair member
    cases member

end Straks.Chain
