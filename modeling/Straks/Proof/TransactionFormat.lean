import Straks.Construction.Serialize.Transaction
import Straks.Proof.StreamFormat

namespace Straks.Serialize

open Chain Wire List UInt32

/-- An input whose witness is left out. -/
def stripped (txin : CTxIn) : CTxIn := { txin with scriptWitness := [] }

/-- The witness stack and its elements are below the vector limit. -/
def WitnessFits (txin : CTxIn) : Prop :=
  txin.scriptWitness.length ≤ maxSize ∧ ∀ item ∈ txin.scriptWitness, item.length ≤ maxSize

/-- The amount is of the source's type, the script below the vector limit. -/
def TxOutFits (txout : CTxOut) : Prop :=
  ((-2 ^ 63 : Int) ≤ txout.nValue ∧ (2 ^ 63 : Int) > txout.nValue) ∧ txout.scriptPubKey.length ≤ maxSize

/-- Every vector of the transaction is below the limit, the amounts of the source's type. -/
structure Sized (tx : CTransaction) : Prop where
  inputs : tx.vin.length ≤ maxSize
  outputs : tx.vout.length ≤ maxSize
  scripts : ∀ txin ∈ tx.vin, txin.scriptSig.length ≤ maxSize
  witnesses : ∀ txin ∈ tx.vin, WitnessFits txin
  outputsFit : ∀ txout ∈ tx.vout, TxOutFits txout

theorem readOutPoint_encodes : Encodes readOutPoint writeOutPoint fun _ => True where
  reads prevout _ := by
    have value : prevout = ⟨BitVec.ofNat 256 prevout.hash.toNat, ofNat prevout.n.toNat⟩ := by simp
    have read : Reads readOutPoint (writeOutPoint prevout)
        ⟨BitVec.ofNat 256 prevout.hash.toNat, ofNat prevout.n.toNat⟩ := by
      apply ((readData_encodes 32).reads _ (by simpa using prevout.hash.isLt)).bind
      exact Reads.last ((readData_encodes 4).reads _ (by simpa using prevout.n.toNat_lt))
    rwa [← value] at read
  consumes := by
    apply (readData_encodes 32).consumes.bind
    rintro _ hash ⟨rfl, hashFits⟩
    apply Consumes.last
    apply (readData_encodes 4).consumes.mono
    rintro _ n ⟨rfl, nFits⟩
    have hashValue : (BitVec.ofNat 256 hash).toNat = hash := by
      exact Nat.mod_eq_of_lt hashFits
    have nValue : (ofNat n).toNat = n := by
      exact Nat.mod_eq_of_lt nFits
    rw [writeOutPoint, hashValue, nValue]
    exact ⟨rfl, trivial⟩

theorem readTxIn_reads {txin : CTxIn} (fits : txin.scriptSig.length ≤ maxSize) :
    Reads readTxIn (writeTxIn txin) (stripped txin) := by
  apply (readOutPoint_encodes.reads txin.prevout trivial).bind
  apply (readBlob_encodes.reads txin.scriptSig fits).bind
  have sequence : stripped txin = ⟨txin.prevout, txin.scriptSig, ofNat txin.nSequence.toNat, []⟩ := by
    simp [stripped]
  rw [sequence]
  exact Reads.last ((readData_encodes 4).reads _ (by simpa using txin.nSequence.toNat_lt))

theorem readTxIn_consumes : Consumes readTxIn fun bytes txin =>
      bytes = writeTxIn txin ∧ txin.scriptSig.length ≤ maxSize ∧ txin.scriptWitness = [] := by
  apply readOutPoint_encodes.consumes.bind
  rintro _ prevout ⟨rfl, -⟩
  apply readBlob_encodes.consumes.bind
  rintro _ scriptSig ⟨rfl, fits⟩
  apply Consumes.last
  apply (readData_encodes 4).consumes.mono
  rintro _ nSequence ⟨rfl, sequenceFits⟩
  have sequence : (ofNat nSequence).toNat = nSequence := by
    exact Nat.mod_eq_of_lt sequenceFits
  rw [writeTxIn, sequence]
  exact ⟨rfl, fits, rfl⟩

theorem readTxOut_encodes : Encodes readTxOut writeTxOut TxOutFits where
  reads txout fits := by
    obtain ⟨⟨low, high⟩, scriptFits⟩ := fits
    have amount : (BitVec.ofNat 64 (BitVec.ofInt 64 txout.nValue).toNat).toInt = txout.nValue := by
      rw [BitVec.ofNat_toNat, BitVec.setWidth_eq, BitVec.toInt_ofInt]
      exact Int.bmod_eq_of_le (by omega) (by omega)
    apply ((readData_encodes 8).reads _ (by simpa using (BitVec.ofInt 64 txout.nValue).isLt)).bind
    have value : txout = ⟨(BitVec.ofNat 64 (BitVec.ofInt 64 txout.nValue).toNat).toInt, txout.scriptPubKey⟩ := by
      rw [amount]
    conv => arg 3; rw [value]
    exact Reads.last (readBlob_encodes.reads txout.scriptPubKey scriptFits)
  consumes := by
    apply (readData_encodes 8).consumes.bind
    rintro _ nValue ⟨rfl, valueFits⟩
    apply Consumes.last
    apply readBlob_encodes.consumes.mono
    rintro _ scriptPubKey ⟨rfl, scriptFits⟩
    have amount : (BitVec.ofInt 64 (BitVec.ofNat 64 nValue).toInt).toNat = nValue := by
      rw [BitVec.ofInt_toInt]
      exact Nat.mod_eq_of_lt valueFits
    have low := BitVec.le_toInt (BitVec.ofNat 64 nValue)
    have high := @BitVec.toInt_lt 64 (BitVec.ofNat 64 nValue)
    rw [writeTxOut, amount]
    exact ⟨rfl, ⟨low, high⟩, scriptFits⟩

/-- The inputs are written as if they had no witness. -/
theorem writeVector_stripped (vin : List CTxIn) :
    writeVector writeTxIn (vin.map stripped) = writeVector writeTxIn vin := by
  rw [writeVector, length_map, flatMap_map]
  rfl

variable {tx : CTransaction} {vin : List CTxIn}

theorem readInputs_reads (length : vin.length ≤ maxSize) (scripts : ∀ txin ∈ vin, txin.scriptSig.length ≤ maxSize) :
    Reads (readVector readTxIn) (writeVector writeTxIn vin) (vin.map stripped) := by
  rw [← writeVector_stripped]
  apply readVector_reads (by rwa [length_map])
  simp only [forall_mem_map]
  exact fun txin member => @readTxIn_reads (stripped txin) (scripts txin member)

theorem readWitnesses_reads (fits : ∀ txin ∈ vin, WitnessFits txin) :
    Reads (readWitnesses (vin.map stripped)) (vin.flatMap writeWitness) vin := by
  induction vin with
  | nil => exact Reads.pure []
  | cons txin rest ih =>
    rw [forall_mem_cons] at fits
    apply ((readVector_encodes readBlob_encodes).reads txin.scriptWitness fits.1).bind
    exact Reads.last (ih fits.2)

theorem readWitnesses_consumes (bare : List CTxIn) : Consumes (readWitnesses bare) fun bytes vin =>
      bytes = vin.flatMap writeWitness ∧ vin.map stripped = bare.map stripped ∧ ∀ txin ∈ vin, WitnessFits txin := by
  induction bare with
  | nil => exact Consumes.pure ⟨rfl, rfl, by simp⟩
  | cons txin rest ih =>
    apply (readVector_encodes readBlob_encodes).consumes.bind
    rintro _ stack ⟨rfl, fits⟩
    apply Consumes.last
    apply ih.mono
    rintro _ others ⟨rfl, same, fit⟩
    rw [forall_mem_cons, map_cons, same]
    exact ⟨rfl, rfl, fits, fit⟩

/-- A vector with an element does not read as the dummy. -/
theorem readBody_reads_basic {vout : List CTxOut} (fAllowWitness : Bool) (nonempty : vin ≠ [])
    (length : vin.length ≤ maxSize) (scripts : ∀ txin ∈ vin, txin.scriptSig.length ≤ maxSize)
    (outputs : vout.length ≤ maxSize ∧ ∀ txout ∈ vout, TxOutFits txout) :
    Reads (readBody fAllowWitness) (writeVector writeTxIn vin ++ writeVector writeTxOut vout)
      (0, vin.map stripped, vout) := by
  apply (readInputs_reads length scripts).bind
  have input : (vin.map stripped).isEmpty = false := by simpa using nonempty
  rw [input]
  exact Reads.last ((readVector_encodes readTxOut_encodes).reads vout outputs)

theorem readBody_reads_extended {vout : List CTxOut} (length : vin.length ≤ maxSize)
    (scripts : ∀ txin ∈ vin, txin.scriptSig.length ≤ maxSize)
    (outputs : vout.length ≤ maxSize ∧ ∀ txout ∈ vout, TxOutFits txout) : Reads (readBody true)
      (writeVector writeTxIn [] ++ ([1] ++ (writeVector writeTxIn vin ++ writeVector writeTxOut vout)))
      (1, vin.map stripped, vout) := by
  apply Reads.bind (@readInputs_reads [] (by simp) (by simp))
  change Reads (readData 1 >>= fun flags => if UInt8.ofNat flags ≠ 0 then _ else _) _ _
  apply Reads.bind ((readData_encodes 1).reads 1 (by norm_num))
  apply (readInputs_reads length scripts).bind
  exact Reads.last ((readVector_encodes readTxOut_encodes).reads vout outputs)

/-- Inputs and outputs stand plainly, after a dummy and flags, or not at all. -/
theorem readBody_consumes : Consumes (readBody true) fun bytes body =>
      (body.1 = 0 ∧ body.2.1 = []) ∨
        (body.2.1.length ≤ maxSize ∧ (∀ txin ∈ body.2.1, txin.scriptSig.length ≤ maxSize ∧ txin.scriptWitness = []) ∧
          (body.2.2.length ≤ maxSize ∧ ∀ txout ∈ body.2.2, TxOutFits txout)) ∧
          bytes = (if body.1 ≠ 0 then writeVector writeTxIn [] ++ [body.1] else []) ++
            (writeVector writeTxIn body.2.1 ++ writeVector writeTxOut body.2.2) := by
  apply (readVector_consumes readTxIn_consumes).bind
  rintro _ vin ⟨rfl, length, scripts⟩
  apply Consumes.branch
  · intro dummy
    rw [Bool.and_true, List.isEmpty_iff] at dummy
    subst dummy
    apply (readData_encodes 1).consumes.bind
    rintro _ flags ⟨rfl, byte⟩
    apply Consumes.branch
    · intro flagged
      apply (readVector_consumes readTxIn_consumes).bind
      rintro _ vin ⟨rfl, length, scripts⟩
      apply Consumes.last
      apply (readVector_encodes readTxOut_encodes).consumes.mono
      rintro _ vout ⟨rfl, outputs⟩
      refine .inr ⟨⟨length, scripts, outputs⟩, ?_⟩
      have flag : littleEndian 1 flags = [UInt8.ofNat flags] := by
        rw [littleEndian, littleEndian, Nat.mod_eq_of_lt (by simpa using byte)]
      rw [if_pos flagged, flag, append_assoc]
    · intro _
      exact Consumes.pure (.inl ⟨rfl, rfl⟩)
  · intro _
    apply Consumes.last
    apply (readVector_encodes readTxOut_encodes).consumes.mono
    rintro _ vout ⟨rfl, outputs⟩
    exact .inr ⟨⟨length, scripts, outputs⟩, rfl⟩

theorem writeWithFlags_zero (tx : CTransaction) : writeWithFlags 0 tx = littleEndian 4 tx.nVersion.toBitVec.toNat ++
      ((writeVector writeTxIn tx.vin ++ writeVector writeTxOut tx.vout) ++ littleEndian 4 tx.nLockTime.toNat) := by
  simp [writeWithFlags]

theorem writeWithFlags_one (tx : CTransaction) : writeWithFlags 1 tx = littleEndian 4 tx.nVersion.toBitVec.toNat ++
      ((writeVector writeTxIn [] ++ ([1] ++ (writeVector writeTxIn tx.vin ++ writeVector writeTxOut tx.vout))) ++
        (tx.vin.flatMap writeWitness ++ littleEndian 4 tx.nLockTime.toNat)) := by
  simp [writeWithFlags]

/-- Version and lock time around what is between them. -/
theorem unserializeTransaction_reads {fAllowWitness : Bool} {body optional : List UInt8} {flags : UInt8}
    (bodyRead : Reads (readBody fAllowWitness) body (flags, vin, tx.vout))
    (optionalRead : Reads (readOptionalData fAllowWitness flags vin) optional (0, tx.vin)) :
    Reads (unserializeTransaction fAllowWitness)
      (littleEndian 4 tx.nVersion.toBitVec.toNat ++ (body ++ (optional ++ littleEndian 4 tx.nLockTime.toNat))) tx := by
  have version : tx.nVersion.toBitVec.toNat < 256 ^ 4 := by simpa using tx.nVersion.toBitVec.isLt
  have lockTime : tx.nLockTime.toNat < 256 ^ 4 := by simpa using tx.nLockTime.toNat_lt
  have value : tx = ⟨Int32.ofBitVec (BitVec.ofNat 32 tx.nVersion.toBitVec.toNat), tx.vin, tx.vout,
      ofNat tx.nLockTime.toNat⟩ := by simp
  conv => arg 3; rw [value]
  apply ((readData_encodes 4).reads _ version).bind
  apply bodyRead.bind
  apply optionalRead.bind
  exact Reads.last ((readData_encodes 4).reads _ lockTime)

theorem unserializeTransaction_reads_basic (sized : Sized tx) (nonempty : tx.vin ≠ []) (fAllowWitness : Bool) :
    Reads (unserializeTransaction fAllowWitness) (writeWithFlags 0 tx) tx.withoutWitness := by
  have body := readBody_reads_basic fAllowWitness nonempty sized.inputs sized.scripts
    ⟨sized.outputs, sized.outputsFit⟩
  have optional : Reads (readOptionalData fAllowWitness 0 (tx.vin.map stripped)) [] (0, tx.withoutWitness.vin) := by
    exact Reads.pure _
  have read := @unserializeTransaction_reads tx.withoutWitness _ _ _ _ _ body optional
  rw [writeWithFlags_zero]
  exact read

theorem unserializeTransaction_reads_extended (sized : Sized tx) :
    Reads (unserializeTransaction true) (writeWithFlags 1 tx) tx := by
  rw [writeWithFlags_one]
  apply unserializeTransaction_reads (readBody_reads_extended sized.inputs sized.scripts ⟨sized.outputs, sized.outputsFit⟩)
  exact Reads.last (readWitnesses_reads sized.witnesses)

theorem hasWitness_eq_false : hasWitness tx = false ↔ ∀ txin ∈ tx.vin, txin.scriptWitness = [] := by
  simp [hasWitness]

theorem withoutWitness_of_hasWitness (bare : hasWitness tx = false) : tx.withoutWitness = tx := by
  rw [hasWitness_eq_false] at bare
  have inputs : tx.vin.map stripped = tx.vin := by
    apply (map_congr_left _).trans (map_id _)
    intro txin member
    rw [stripped, ← bare txin member]
    rfl
  exact congrArg (fun vin => { tx with vin := vin }) inputs

/-- When no flag is left, the only one brought the witnesses. -/
theorem readOptionalData_consumes (flags : UInt8) (bare : List CTxIn) :
    Consumes (readOptionalData true flags bare) fun bytes result => result.1 = 0 →
      flags = 0 ∧ bytes = [] ∧ result.2 = bare ∨
        flags = 1 ∧ bytes = result.2.flatMap writeWitness ∧ result.2.map stripped = bare.map stripped ∧
          ∀ txin ∈ result.2, WitnessFits txin := by
  apply Consumes.branch
  · intro _
    apply Consumes.last
    apply (readWitnesses_consumes bare).mono
    intro bytes vin read cleared
    exact .inr ⟨UInt8.xor_eq_zero_iff.mp cleared, read⟩
  · intro _
    apply Consumes.pure
    exact fun cleared => .inl ⟨cleared, rfl, rfl⟩

/-- Inputs equal but for witnesses have the same scripts. -/
theorem scripts_of_stripped {bare : List CTxIn} (same : vin.map stripped = bare.map stripped)
    (scripts : ∀ txin ∈ bare, txin.scriptSig.length ≤ maxSize) : ∀ txin ∈ vin, txin.scriptSig.length ≤ maxSize := by
  intro txin member
  have image : stripped txin ∈ bare.map stripped := by
    rw [← same]
    exact mem_map_of_mem member
  obtain ⟨other, otherMember, equal⟩ := mem_map.mp image
  have script : (stripped other).scriptSig = (stripped txin).scriptSig := congrArg CTxIn.scriptSig equal
  change (stripped txin).scriptSig.length ≤ maxSize
  rw [← script]
  exact scripts other otherMember

/-- What was accepted is the plain form without witnesses, or an extended form. -/
theorem unserializeTransaction_consumes : Consumes (unserializeTransaction true) fun bytes tx => tx.vin ≠ [] →
      Sized tx ∧ (bytes = writeWithFlags 0 tx ∧ hasWitness tx = false ∨ bytes = writeWithFlags 1 tx) := by
  apply (readData_encodes 4).consumes.bind
  rintro _ nVersion ⟨rfl, version⟩
  apply readBody_consumes.bind
  rintro body ⟨flags, bare, vout⟩ bodyRead
  apply (readOptionalData_consumes flags bare).bind
  rintro optional ⟨left, vin⟩ optionalRead
  apply Consumes.branch
  · exact fun _ => Consumes.throw _ _
  · intro cleared
    apply Consumes.last
    apply (readData_encodes 4).consumes.mono
    rintro _ nLockTime ⟨rfl, lockTime⟩ nonempty
    have versionValue : (Int32.ofBitVec (BitVec.ofNat 32 nVersion)).toBitVec.toNat = nVersion := by
      exact Nat.mod_eq_of_lt version
    have lockValue : (ofNat nLockTime).toNat = nLockTime := by
      exact Nat.mod_eq_of_lt lockTime
    rcases optionalRead (not_not.mp cleared) with ⟨rfl, rfl, rfl⟩ | ⟨rfl, rfl, same, witnesses⟩
    · rcases bodyRead with ⟨-, empty⟩ | ⟨⟨length, inputs, outputs⟩, rfl⟩
      · exact absurd empty nonempty
      · have bareInputs : ∀ txin ∈ vin, WitnessFits txin := by
          intro txin member
          simp [WitnessFits, (inputs txin member).2]
        refine ⟨⟨length, outputs.1, fun txin member => (inputs txin member).1, bareInputs, outputs.2⟩, .inl ⟨?_, ?_⟩⟩
        · rw [writeWithFlags_zero, versionValue, lockValue]
          rfl
        · exact hasWitness_eq_false.mpr fun txin member => (inputs txin member).2
    · rcases bodyRead with ⟨impossible, -⟩ | ⟨⟨length, inputs, outputs⟩, rfl⟩
      · exact absurd impossible (by simp)
      · have sameLength : vin.length = bare.length := by
          rw [← length_map stripped, same, length_map]
        have sameBytes : writeVector writeTxIn vin = writeVector writeTxIn bare := by
          rw [← writeVector_stripped vin, same, writeVector_stripped]
        refine ⟨⟨sameLength ▸ length, outputs.1, ?_, witnesses, outputs.2⟩, .inr ?_⟩
        · exact scripts_of_stripped same fun txin member => (inputs txin member).1
        · rw [writeWithFlags_one, versionValue, lockValue, sameBytes]
          simp

theorem serializeTransaction_witness (witness : hasWitness tx = true) :
    serializeTransaction true tx = writeWithFlags 1 tx := by
  simp [serializeTransaction, witness]

theorem serializeTransaction_bare (bare : hasWitness tx = false) :
    serializeTransaction true tx = writeWithFlags 0 tx := by
  simp [serializeTransaction, bare]

theorem serializeTransaction_noWitness (tx : CTransaction) : serializeTransaction false tx = writeWithFlags 0 tx := rfl

/-- The serialization without witnesses does not read them. -/
theorem writeWithFlags_zero_withoutWitness (tx : CTransaction) :
    writeWithFlags 0 tx.withoutWitness = writeWithFlags 0 tx := by
  have inputs : writeVector writeTxIn tx.withoutWitness.vin = writeVector writeTxIn tx.vin := writeVector_stripped tx.vin
  rw [writeWithFlags_zero, writeWithFlags_zero, inputs]
  rfl

/-- A transaction with an input and with vectors below the limit reads back from its serialization, without witnesses
from the one without them, and its hash does not depend on them. -/
theorem transaction_roundTrip (tx : CTransaction) (nonempty : tx.vin ≠ []) (sized : Sized tx) :
    Reads (unserializeTransaction true) (serializeTransaction true tx) tx ∧
      (∀ fAllowWitness, Reads (unserializeTransaction fAllowWitness) (serializeTransaction false tx)
        tx.withoutWitness) ∧
      ∀ (hash : List UInt8 → Uint256) (other : CTransaction), other.withoutWitness = tx.withoutWitness →
        computeHash hash other = computeHash hash tx := by
  refine ⟨?_, unserializeTransaction_reads_basic sized nonempty, ?_⟩
  · cases witness : hasWitness tx with
    | true =>
      rw [serializeTransaction_witness witness]
      exact unserializeTransaction_reads_extended sized
    | false =>
      have read := unserializeTransaction_reads_basic sized nonempty true
      rw [serializeTransaction_bare witness]
      rwa [withoutWitness_of_hasWitness witness] at read
  · intro hash other same
    rw [computeHash, computeHash, serializeTransaction_noWitness, serializeTransaction_noWitness,
      ← writeWithFlags_zero_withoutWitness other, same, writeWithFlags_zero_withoutWitness]

/-- A transaction with one input, a script and a witness. -/
def signedTransaction (scriptSig : CScript) : CTransaction :=
  ⟨2, [⟨⟨7, 1⟩, scriptSig, 0xffffffff, [[1, 2], []]⟩], [], 0⟩

theorem signedTransaction_sized {scriptSig : CScript} (short : scriptSig.length ≤ maxSize) :
    Sized (signedTransaction scriptSig) := by
  constructor <;> simp [signedTransaction, WitnessFits, maxSize]
  exact short

/-- A transaction without outputs reads back with its witness. -/
theorem transaction_roundTrip_signed :
    Reads (unserializeTransaction true) (serializeTransaction true (signedTransaction [0x51])) (signedTransaction [0x51]) :=
  (transaction_roundTrip (signedTransaction [0x51]) (by simp [signedTransaction])
    (signedTransaction_sized (by decide))).1

/-- A script above `MAX_SIZE` bytes is not read back. -/
theorem transaction_roundTrip_oversized :
    let tx := signedTransaction (List.replicate (maxSize + 1) 0)
    (unserializeTransaction true).run (serializeTransaction true tx) ≠ .ok (tx, []) := by
  intro tx read
  have nonempty : tx.vin ≠ [] := by simp [tx, signedTransaction]
  obtain ⟨bytes, -, accepted⟩ := unserializeTransaction_consumes _ _ _ read
  have short := (accepted nonempty).1.scripts _ mem_cons_self
  rw [length_replicate] at short
  omega

theorem writeWithFlags_length_lt (tx : CTransaction) : (writeWithFlags 0 tx).length < (writeWithFlags 1 tx).length := by
  rw [writeWithFlags_zero, writeWithFlags_one]
  simp only [length_append, length_singleton]
  omega

/-- The extended form of a transaction without a witness. -/
def SuperfluousFlag (bytes : List UInt8) : Prop :=
  ∃ tx, Sized tx ∧ hasWitness tx = false ∧ bytes = writeWithFlags 1 tx

/-- Accepted bytes with an input are written back exactly when they flag no all-empty witnesses. -/
theorem transaction_canonical_iff (bytes : List UInt8) (tx : CTransaction)
    (accepted : (unserializeTransaction true).run bytes = .ok (tx, [])) (nonempty : tx.vin ≠ []) :
    serializeTransaction true tx = bytes ↔ ¬ SuperfluousFlag bytes := by
  obtain ⟨taken, split, read⟩ := unserializeTransaction_consumes _ _ _ accepted
  rw [append_nil] at split
  subst split
  obtain ⟨sized, forms⟩ := read nonempty
  -- the bytes determine the transaction, so a superfluous flag can only be about this one
  have superfluous : SuperfluousFlag bytes ↔ hasWitness tx = false ∧ bytes = writeWithFlags 1 tx := by
    constructor
    · rintro ⟨other, otherSized, bare, written⟩
      have otherRead := unserializeTransaction_reads_extended otherSized []
      rw [append_nil, ← written, accepted] at otherRead
      cases otherRead
      exact ⟨bare, written⟩
    · exact fun ⟨bare, written⟩ => ⟨tx, sized, bare, written⟩
  have different : writeWithFlags 0 tx ≠ writeWithFlags 1 tx :=
    fun same => absurd (congrArg List.length same) (writeWithFlags_length_lt tx).ne
  rw [superfluous]
  cases witness : hasWitness tx with
  | true =>
    rcases forms with ⟨-, bare⟩ | extended
    · rw [witness] at bare
      exact absurd bare.symm Bool.false_ne_true
    · simp [serializeTransaction_witness witness, extended]
  | false =>
    rw [serializeTransaction_bare witness]
    rcases forms with ⟨plain, -⟩ | extended
    · simp [plain, different]
    · simp [extended, different]

/-- A transaction whose only input has no witness. -/
def bareTransaction : CTransaction := ⟨2, [⟨⟨7, 1⟩, [0x51], 0xffffffff, []⟩], [⟨5, [0x51]⟩], 0⟩

theorem bareTransaction_sized : Sized bareTransaction := by
  constructor <;> simp [bareTransaction, WitnessFits, TxOutFits, maxSize]

/-- The plain form without witnesses is written back. -/
theorem transaction_canonical_plain :
    (unserializeTransaction true).run (writeWithFlags 0 bareTransaction) = .ok (bareTransaction, []) ∧
      ¬ SuperfluousFlag (writeWithFlags 0 bareTransaction) := by
  have accepted : (unserializeTransaction true).run (writeWithFlags 0 bareTransaction) = .ok (bareTransaction, []) := rfl
  have canonical := transaction_canonical_iff _ _ accepted (by simp [bareTransaction])
  exact ⟨accepted, canonical.mp rfl⟩

/-- The extended form with one empty witness is accepted, and written back plainly. -/
theorem transaction_canonical_superfluous :
    (unserializeTransaction true).run (writeWithFlags 1 bareTransaction) = .ok (bareTransaction, []) ∧
      bareTransaction.vin ≠ [] ∧ serializeTransaction true bareTransaction ≠ writeWithFlags 1 bareTransaction := by
  refine ⟨unserializeTransaction_reads_extended bareTransaction_sized [], by simp [bareTransaction], ?_⟩
  exact fun same => absurd (congrArg List.length same) (writeWithFlags_length_lt bareTransaction).ne

end Straks.Serialize
