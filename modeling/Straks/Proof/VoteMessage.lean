import Straks.Construction.Masternode.Payments
import Straks.Proof.HeightPrefix

namespace Straks.Script
open DecimalText List

theorem hexSymbol_injective {left right : Nat} (leftDigit : left < 16) (rightDigit : right < 16)
    (equal : hexSymbol left = hexSymbol right) : left = right := by
  have table : ∀ left < 16, ∀ right < 16, hexSymbol left = hexSymbol right → left = right := by decide
  exact table left leftDigit right rightDigit equal

/-- A hexadecimal digit. -/
def IsHex (symbol : Char) : Prop := ∃ digit < 16, symbol = hexSymbol digit

variable {leftRest rightRest word : List Char} {words : List (List Char)} {symbol : Char} {left right : UInt32}

theorem isHex_of_mem_hexStr {bytes : List UInt8} (member : symbol ∈ hexStr bytes) : IsHex symbol := by
  obtain ⟨byte, _, inByte⟩ := mem_flatMap.mp member
  have bound := byte.toNat_lt
  simp only [mem_cons, not_mem_nil, or_false] at inByte
  rcases inByte with rfl | rfl
  · exact ⟨_, by omega, rfl⟩
  · exact ⟨_, by omega, rfl⟩

theorem hexStr_cons (byte : UInt8) (rest : List UInt8) :
    hexStr (byte :: rest) = hexSymbol (byte.toNat / 16) :: hexSymbol (byte.toNat % 16) :: hexStr rest := rfl

theorem hexStr_injective {left right : List UInt8} (equal : hexStr left = hexStr right) : left = right := by
  induction left generalizing right with
  | nil =>
    cases right with
    | nil => rfl
    | cons byte rest => cases equal
  | cons byte rest ih =>
    cases right with
    | nil => cases equal
    | cons other others =>
      rw [hexStr_cons, hexStr_cons, List.cons.injEq, List.cons.injEq] at equal
      obtain ⟨high, low, tails⟩ := equal
      have bound := byte.toNat_lt
      have bound' := other.toNat_lt
      have quotient := hexSymbol_injective (by omega) (by omega) high
      have remainder := hexSymbol_injective (by omega) (by omega) low
      rw [UInt8.toNat_inj.mp (show byte.toNat = other.toNat by omega), ih tails]

/-- Two digits for each byte. -/
theorem hexStr_take (count : Nat) (bytes : List UInt8) : (hexStr bytes).take (2 * count) = hexStr (bytes.take count) := by
  induction count generalizing bytes with
  | zero => rfl
  | succ count ih =>
    cases bytes with
    | nil => rfl
    | cons byte rest => simp [hexStr_cons, mul_add, ih]

theorem hexStr_length (bytes : List UInt8) : (hexStr bytes).length = 2 * bytes.length := by
  induction bytes with
  | nil => rfl
  | cons byte rest ih =>
    rw [hexStr_cons]
    simp only [length_cons, ih]
    omega

theorem littleEndian_drop (dropped width value : Nat) :
    (littleEndian (dropped + width) value).drop dropped = littleEndian width (value / 256 ^ dropped) := by
  induction dropped generalizing value with
  | zero => simp
  | succ dropped ih =>
    rw [Nat.succ_add, littleEndian, drop_succ_cons, ih, Nat.div_div_eq_div_mul, pow_succ, mul_comm (256 ^ dropped)]

/-- The ten digits shown of a hash are its highest bytes. -/
theorem uint256ToString_take_eq_iff (left right : Uint256) :
    (uint256ToString left).take 10 = (uint256ToString right).take 10 ↔
      left.toNat / 2 ^ 216 = right.toNat / 2 ^ 216 := by
  have shown (value : Uint256) : (uint256ToString value).take 10 = hexStr (littleEndian 5 (value.toNat / 2 ^ 216)).reverse := by
    rw [uint256ToString, show 10 = 2 * 5 from rfl, hexStr_take, take_reverse, littleEndian_length,
      show littleEndian 32 value.toNat = littleEndian (27 + 5) value.toNat from rfl,
      littleEndian_drop, show 256 ^ 27 = 2 ^ 216 by norm_num]
  have high (value : Uint256) : value.toNat / 2 ^ 216 < 256 ^ 5 := by
    omega
  rw [shown, shown]
  constructor
  · intro equal
    have bytes := congrArg readLE (reverse_injective (hexStr_injective equal))
    rwa [readLE_littleEndian, readLE_littleEndian, Nat.mod_eq_of_lt (high left), Nat.mod_eq_of_lt (high right)] at bytes
  · intro equal
    rw [equal]

/-- The characters that end a field of the text of an input. -/
def EndsField (symbol : Char) : Prop := symbol = ',' ∨ symbol = ')'

theorem isHex_not_endsField (hex : IsHex symbol) : ¬ EndsField symbol := by
  obtain ⟨digit, bound, rfl⟩ := hex
  have table : ∀ digit < 16, hexSymbol digit ≠ ',' ∧ hexSymbol digit ≠ ')' := by decide
  exact not_or.mpr (table digit bound)

theorem decimalText_not_endsField {value : Int} (member : symbol ∈ decimalText value) : ¬ EndsField symbol := by
  rintro (rfl | rfl) <;> exact absurd (mem_decimalText member) (by decide)

/-- The end of the text of an input, with what follows it. -/
def sequenceText (nSequence : UInt32) (rest : List Char) : List Char :=
  (if nSequence ≠ sequenceFinal then ", nSequence=".toList ++ decimalText nSequence.toNat else []) ++ ')' :: rest

theorem sequenceText_stops (nSequence : UInt32) (rest : List Char) :
    ∃ stop later, EndsField stop ∧ sequenceText nSequence rest = stop :: later := by
  rw [sequenceText]
  split
  · exact ⟨',', _, .inl rfl, rfl⟩
  · exact ⟨')', _, .inr rfl, rfl⟩

theorem natText_eq_iff : decimalText left.toNat = decimalText right.toNat ↔ left = right := by
  constructor
  · intro equal
    exact UInt32.toNat_inj.mp (Int.natCast_inj.mp (decimalText_injective equal))
  · intro equal
    rw [equal]

theorem decimalText_append_eq_iff :
    decimalText left.toNat ++ ')' :: leftRest = decimalText right.toNat ++ ')' :: rightRest ↔
      left = right ∧ leftRest = rightRest := by
  constructor
  · intro equal
    obtain ⟨numbers, rests⟩ := append_stop_inj (fun _ => decimalText_not_endsField) (fun _ => decimalText_not_endsField)
      (.inr rfl) (.inr rfl) equal
    exact ⟨natText_eq_iff.mp numbers, (List.cons.inj rests).2⟩
  · rintro ⟨rfl, rfl⟩
    rfl

theorem sequenceText_eq_iff :
    sequenceText left leftRest = sequenceText right rightRest ↔ left = right ∧ leftRest = rightRest := by
  rw [sequenceText, sequenceText]
  by_cases leftFinal : left = sequenceFinal <;> by_cases rightFinal : right = sequenceFinal
  · simp [leftFinal, rightFinal]
  · simp [leftFinal, Ne.symm rightFinal, rightFinal]
  · simp [leftFinal, rightFinal]
  · simp only [ne_eq, leftFinal, rightFinal, not_false_eq_true, if_true, append_assoc, append_cancel_left_eq]
    exact decimalText_append_eq_iff

theorem hex_sequenceText_eq_iff {left right : List UInt8} {leftSequence rightSequence : UInt32} :
    hexStr left ++ sequenceText leftSequence leftRest = hexStr right ++ sequenceText rightSequence rightRest ↔
      left = right ∧ leftSequence = rightSequence ∧ leftRest = rightRest := by
  constructor
  · intro equal
    obtain ⟨leftStop, leftLater, leftStops, leftText⟩ := sequenceText_stops leftSequence leftRest
    obtain ⟨rightStop, rightLater, rightStops, rightText⟩ := sequenceText_stops rightSequence rightRest
    rw [leftText, rightText] at equal
    obtain ⟨bytes, rests⟩ := append_stop_inj (fun _ member => isHex_not_endsField (isHex_of_mem_hexStr member))
      (fun _ member => isHex_not_endsField (isHex_of_mem_hexStr member)) leftStops rightStops equal
    rw [← leftText, ← rightText] at rests
    exact ⟨hexStr_injective bytes, sequenceText_eq_iff.mp rests⟩
  · rintro ⟨rfl, rfl, rfl⟩
    rfl

/-- What the text of an input shows: five bytes of the hash, the index, and up to twelve bytes of the script. -/
structure ShownAlike (left right : CTxIn) : Prop where
  hash : left.prevout.hash.toNat / 2 ^ 216 = right.prevout.hash.toNat / 2 ^ 216
  n : left.prevout.n = right.prevout.n
  null : left.prevout.isNull = right.prevout.isNull
  script : (if left.prevout.isNull then left.scriptSig else left.scriptSig.take 12) =
    if right.prevout.isNull then right.scriptSig else right.scriptSig.take 12
  nSequence : left.nSequence = right.nSequence

theorem txInToString_append (vin : CTxIn) (rest : List Char) :
    txInToString vin ++ rest = "CTxIn(COutPoint(".toList ++ ((uint256ToString vin.prevout.hash).take 10 ++
      (", ".toList ++ (decimalText vin.prevout.n.toNat ++ (')' :: ((if vin.prevout.isNull then ", coinbase ".toList
        else ", scriptSig=".toList) ++ (hexStr (if vin.prevout.isNull then vin.scriptSig else vin.scriptSig.take 12) ++
          sequenceText vin.nSequence rest)))))) := by
  have script : (if vin.prevout.isNull then ", coinbase ".toList ++ hexStr vin.scriptSig
      else ", scriptSig=".toList ++ (hexStr vin.scriptSig).take 24) =
      (if vin.prevout.isNull then ", coinbase ".toList else ", scriptSig=".toList) ++
        hexStr (if vin.prevout.isNull then vin.scriptSig else vin.scriptSig.take 12) := by
    by_cases null : vin.prevout.isNull = true
    · rw [if_pos null, if_pos null, if_pos null]
    · rw [if_neg null, if_neg null, if_neg null, show 24 = 2 * 12 from rfl, hexStr_take]
  have start : "CTxIn(COutPoint(".toList = "CTxIn(".toList ++ "COutPoint(".toList := by decide
  unfold txInToString outPointToString sequenceText
  rw [script, start]
  -- as variables the fixed texts are not evaluated while the parts are moved
  generalize "CTxIn(".toList = opening, "COutPoint(".toList = outpoint, ", ".toList = comma,
    ", coinbase ".toList = coinbase, ", scriptSig=".toList = scriptSig, ", nSequence=".toList = nSequence
  simp only [append_assoc, cons_append, nil_append]

theorem coinbase_append_ne (left right : List Char) : ", coinbase ".toList ++ left ≠ ", scriptSig=".toList ++ right := by
  intro equal
  have third : some 'c' = some 's' := congrArg (fun text => text[2]?) equal
  exact absurd third (by decide)

/-- The text of an input shows where it ends. -/
theorem txInToString_append_eq_iff {left right : CTxIn} :
    txInToString left ++ leftRest = txInToString right ++ rightRest ↔ ShownAlike left right ∧ leftRest = rightRest := by
  have digits (vin : CTxIn) : ((uint256ToString vin.prevout.hash).take 10).length = 10 := by
    rfl
  rw [txInToString_append, txInToString_append, append_cancel_left_eq]
  constructor
  · intro equal
    obtain ⟨hash, equal⟩ := append_inj equal ((digits left).trans (digits right).symm)
    rw [append_cancel_left_eq, decimalText_append_eq_iff] at equal
    obtain ⟨n, equal⟩ := equal
    have null : left.prevout.isNull = right.prevout.isNull := by
      cases leftNull : left.prevout.isNull <;> cases rightNull : right.prevout.isNull <;>
        simp only [leftNull, rightNull, Bool.false_eq_true, if_true, if_false] at equal
      · rfl
      · exact absurd equal.symm (coinbase_append_ne _ _)
      · exact absurd equal (coinbase_append_ne _ _)
      · rfl
    rw [null, append_cancel_left_eq, hex_sequenceText_eq_iff] at equal
    exact ⟨⟨(uint256ToString_take_eq_iff _ _).mp hash, n, null, null ▸ equal.1, equal.2.1⟩, equal.2.2⟩
  · rintro ⟨⟨hash, n, null, script, nSequence⟩, rfl⟩
    rw [(uint256ToString_take_eq_iff _ _).mpr hash, n, script, null, nSequence]

variable (opcode : UInt8) (vch : List UInt8)

/-- The word shown for an instruction. -/
def opWord : List Char :=
  if opcode ≤ opPushData4 then valueString vch else (getOpName opcode).toList

def scriptWordsLoop : Nat → CScript → List (List Char)
  | 0, _ => []
  | fuel + 1, pc =>
    if pc.isEmpty then []
    else
      match getOp pc with
      | none => ["[error]".toList]
      | some (opcode, vch, next) => opWord opcode vch :: scriptWordsLoop fuel next

/-- The words of the text of a script. -/
def scriptWords (script : CScript) : List (List Char) := scriptWordsLoop script.length script

/-- A word is not empty and has no space in it. -/
def IsWord (text : List Char) : Prop := text ≠ [] ∧ ' ' ∉ text

theorem getOpName_isWord : IsWord (getOpName opcode).toList := by
  have table : ∀ byte < 256, (getOpName (UInt8.ofNat byte)).toList ≠ [] ∧ ' ' ∉ (getOpName (UInt8.ofNat byte)).toList := by
    decide +kernel
  have entry := table opcode.toNat opcode.toNat_lt
  rwa [UInt8.ofNat_toNat] at entry

theorem decimalText_isWord (value : Int) : IsWord (decimalText value) :=
  ⟨decimalText_ne_nil value, fun member => absurd (mem_decimalText member) (by decide)⟩

theorem valueString_isWord : IsWord (valueString vch) := by
  rw [valueString]
  split_ifs with short
  · exact decimalText_isWord _
  · constructor
    · intro empty
      have length := hexStr_length vch
      rw [empty, length_nil] at length
      omega
    · intro member
      obtain ⟨digit, bound, equal⟩ := isHex_of_mem_hexStr member
      have table : ∀ digit < 16, ' ' ≠ hexSymbol digit := by decide
      exact table digit bound equal

theorem opWord_isWord : IsWord (opWord opcode vch) := by
  rw [opWord]
  split_ifs
  · exact valueString_isWord vch
  · exact getOpName_isWord opcode

theorem isWord_of_mem_scriptWordsLoop {fuel : Nat} {pc : CScript} (member : word ∈ scriptWordsLoop fuel pc) :
    IsWord word := by
  induction fuel generalizing pc with
  | zero => cases member
  | succ fuel ih =>
    rw [scriptWordsLoop] at member
    split at member
    · cases member
    · split at member
      · rw [mem_singleton.mp member]
        exact ⟨by decide, by decide⟩
      · rcases mem_cons.mp member with rfl | later
        · exact opWord_isWord _ _
        · exact ih later

theorem intercalate_eq_nil_iff (valid : ∀ word ∈ words, IsWord word) : [' '].intercalate words = [] ↔ words = [] := by
  cases words with
  | nil => simp
  | cons word rest =>
    have nonempty := (valid word mem_cons_self).1
    cases rest with
    | nil => simpa using nonempty
    | cons next later => simp [intercalate_cons_cons]

/-- The loop puts a space before every word but the first. -/
theorem intercalate_append_word (valid : ∀ word ∈ words, IsWord word) (word : List Char) :
    [' '].intercalate (words ++ [word]) =
      (if ([' '].intercalate words).isEmpty then [' '].intercalate words else [' '].intercalate words ++ [' ']) ++ word := by
  simp only [List.isEmpty_iff, intercalate_eq_nil_iff valid]
  clear valid
  induction words with
  | nil => simp
  | cons first rest ih =>
    rw [if_neg (cons_ne_nil first rest), cons_append,
      intercalate_cons_of_ne_nil (append_ne_nil_of_right_ne_nil rest (cons_ne_nil word [])), ih]
    split_ifs with last
    · simp [last]
    · rw [intercalate_cons_of_ne_nil last]
      simp only [append_assoc]

theorem scriptToStringLoop_eq (fuel : Nat) (pc : CScript) (valid : ∀ word ∈ words, IsWord word) :
    scriptToStringLoop fuel pc ([' '].intercalate words) = [' '].intercalate (words ++ scriptWordsLoop fuel pc) := by
  induction fuel generalizing pc words with
  | zero => rw [scriptToStringLoop, scriptWordsLoop, append_nil]
  | succ fuel ih =>
    rw [scriptToStringLoop, scriptWordsLoop]
    split
    · rw [append_nil]
    · cases getOp pc with
      | none => exact (intercalate_append_word valid _).symm
      | some instruction =>
        obtain ⟨opcode, vch, next⟩ := instruction
        show scriptToStringLoop fuel next (_ ++ opWord opcode vch) = _
        rw [← intercalate_append_word valid, ih, append_assoc, singleton_append]
        intro word member
        rcases mem_append.mp member with earlier | last
        · exact valid word earlier
        · rw [mem_singleton.mp last]
          exact opWord_isWord opcode vch

theorem scriptToString_eq (script : CScript) : scriptToString script = [' '].intercalate (scriptWords script) := by
  show scriptToStringLoop script.length script ([' '].intercalate []) = _
  rw [scriptToStringLoop_eq _ _ (fun _ member => absurd member not_mem_nil), nil_append, scriptWords]

/-- Characters before the first word become its beginning. -/
def prependFirst (digits : List Char) : List (List Char) → List (List Char)
  | [] => if digits = [] then [] else [digits]
  | word :: rest => (digits ++ word) :: rest

theorem append_intercalate (digits : List Char) (words : List (List Char)) :
    digits ++ [' '].intercalate words = [' '].intercalate (prependFirst digits words) := by
  cases words with
  | nil =>
    rw [prependFirst]
    split_ifs with empty
    · simp [empty]
    · simp
  | cons word rest =>
    cases rest with
    | nil => simp [prependFirst]
    | cons next later => simp [prependFirst, intercalate_cons_cons]

theorem isWord_of_mem_prependFirst {digits : List Char} (unspaced : ' ' ∉ digits) (valid : ∀ word ∈ words, IsWord word)
    (member : word ∈ prependFirst digits words) : IsWord word := by
  cases words with
  | nil =>
    rw [prependFirst] at member
    split_ifs at member with empty
    · cases member
    · rw [mem_singleton.mp member]
      exact ⟨empty, unspaced⟩
  | cons first rest =>
    rcases mem_cons.mp member with rfl | later
    · have isWord := valid first mem_cons_self
      exact ⟨append_ne_nil_of_right_ne_nil _ isWord.1, by simp [unspaced, isWord.2]⟩
    · exact valid word (mem_cons_of_mem _ later)

/-- Words with single spaces between them are read back. -/
theorem intercalate_eq_iff {left right : List (List Char)} (leftValid : ∀ word ∈ left, IsWord word)
    (rightValid : ∀ word ∈ right, IsWord word) : [' '].intercalate left = [' '].intercalate right ↔ left = right := by
  constructor
  · intro equal
    by_cases leftEmpty : left = []
    · rw [(intercalate_eq_nil_iff leftValid).mpr leftEmpty, eq_comm, intercalate_eq_nil_iff rightValid] at equal
      rw [leftEmpty, equal]
    · have rightNonempty : right ≠ [] := by
        rw [ne_eq, ← intercalate_eq_nil_iff rightValid, ← equal, intercalate_eq_nil_iff leftValid]
        exact leftEmpty
      have split := congrArg (List.splitOn ' ') equal
      rwa [splitOn_intercalate ' ' (fun word member => (leftValid word member).2) leftEmpty,
        splitOn_intercalate ' ' (fun word member => (rightValid word member).2) rightNonempty] at split
  · intro equal
    rw [equal]

/-- The first pair's number goes on with its script's digits. -/
def Continues (leftHeight rightHeight : Int) (leftScript rightScript : CScript) : Prop :=
  ∃ digits, decimalText rightHeight = decimalText leftHeight ++ digits ∧
    scriptWords leftScript = prependFirst digits (scriptWords rightScript)

theorem scriptToString_eq_append_iff {digits : List Char} (unspaced : ' ' ∉ digits) (left right : CScript) :
    scriptToString left = digits ++ scriptToString right ↔ scriptWords left = prependFirst digits (scriptWords right) := by
  rw [scriptToString_eq, scriptToString_eq, append_intercalate]
  exact intercalate_eq_iff (fun _ => isWord_of_mem_scriptWordsLoop)
    (fun _ => isWord_of_mem_prependFirst unspaced (fun _ => isWord_of_mem_scriptWordsLoop))

/-- The text of a number has no end, so a script's text may begin inside it. -/
theorem decimalText_scriptToString_eq_iff (leftHeight rightHeight : Int) (leftScript rightScript : CScript) :
    decimalText leftHeight ++ scriptToString leftScript = decimalText rightHeight ++ scriptToString rightScript ↔
      Continues leftHeight rightHeight leftScript rightScript ∨
        Continues rightHeight leftHeight rightScript leftScript := by
  have unspaced {height : Int} {start digits : List Char} (equal : decimalText height = start ++ digits) : ' ' ∉ digits := by
    intro member
    exact (decimalText_isWord height).2 (equal ▸ mem_append_right start member)
  rw [append_eq_append_iff]
  constructor
  · rintro (⟨digits, number, script⟩ | ⟨digits, number, script⟩)
    · exact .inl ⟨digits, number, (scriptToString_eq_append_iff (unspaced number) _ _).mp script⟩
    · exact .inr ⟨digits, number, (scriptToString_eq_append_iff (unspaced number) _ _).mp script⟩
  · rintro (⟨digits, number, script⟩ | ⟨digits, number, script⟩)
    · exact .inl ⟨digits, number, (scriptToString_eq_append_iff (unspaced number) _ _).mpr script⟩
    · exact .inr ⟨digits, number, (scriptToString_eq_append_iff (unspaced number) _ _).mpr script⟩

end Straks.Script

namespace Straks.Masternode

open DecimalText Script

variable (left right : CMasternodePaymentWinner)

/-- Two votes the text shows alike: in what it shows of the input, and in the height and the payee, between which
nothing stands. -/
structure SameText : Prop where
  input : ShownAlike left.vin right.vin
  payment : Continues left.nBlockHeight.toInt right.nBlockHeight.toInt left.payee right.payee ∨
    Continues right.nBlockHeight.toInt left.nBlockHeight.toInt right.payee left.payee

theorem strMessage_eq_iff : left.strMessage = right.strMessage ↔ SameText left right := by
  rw [CMasternodePaymentWinner.strMessage, CMasternodePaymentWinner.strMessage, List.append_assoc, List.append_assoc,
    txInToString_append_eq_iff, decimalText_scriptToString_eq_iff]
  exact ⟨fun ⟨input, payment⟩ => ⟨input, payment⟩, fun ⟨input, payment⟩ => ⟨input, payment⟩⟩

/-- Two votes for different collaterals, heights or payees. -/
def VotesDiffer : Prop :=
  left.vin.prevout ≠ right.vin.prevout ∨ left.nBlockHeight ≠ right.nBlockHeight ∨ left.payee ≠ right.payee

/-- Two different votes are signed as different texts exactly when the text shows their difference: not one of the lower
27 bytes of the hash alone, nor one the missing separators hide. -/
theorem strMessage_ne_iff :
    (VotesDiffer left right → left.strMessage ≠ right.strMessage) ↔ ¬ (VotesDiffer left right ∧ SameText left right) := by
  rw [ne_eq, strMessage_eq_iff, not_and]

/-- A vote for the first output of a numbered transaction, block 100 and no payee. -/
def numberedVote (hash : Uint256) : CMasternodePaymentWinner :=
  { nBlockHeight := 100, vin := ⟨⟨hash, 0⟩, [], sequenceFinal, []⟩, payee := [], vchSig := [], score := 0 }

/-- Votes for hashes that differ in their lowest byte have one text. -/
theorem strMessage_shared : ∃ left right, VotesDiffer left right ∧ left.strMessage = right.strMessage := by
  refine ⟨numberedVote 1, numberedVote 2, .inl (by decide), (strMessage_eq_iff _ _).mpr ⟨⟨?_, rfl, rfl, rfl, rfl⟩, ?_⟩⟩
  · decide
  · exact .inl ⟨[], rfl, rfl⟩

end Straks.Masternode
