import Mathlib.Data.Nat.Log
import Mathlib.Data.List.Basic
import Mathlib.Tactic.Ring

namespace Straks.DecimalText

open List Nat

/-- The decimal text of an integer, with a leading minus sign. -/
def decimalText (value : Int) : List Char :=
  if value < 0 then '-' :: toDigits 10 value.natAbs else toDigits 10 value.natAbs

/-- The number of digits in the decimal text of an integer. -/
def decimalWidth (value : Int) : Nat :=
  log 10 value.natAbs + 1

/-- The texts of the values one after another. -/
def joinedText (values : List Int) : List Char :=
  values.flatMap decimalText

/-- The number of digits in a joined text. -/
def joinedWidth (values : List Int) : Nat :=
  (values.map decimalWidth).sum

/-- The number the digits of a joined text spell. -/
def joinedNumber : List Int → Nat
  | [] => 0
  | value :: rest => value.natAbs * 10 ^ joinedWidth rest + joinedNumber rest

/-- The numbers of digits before each minus sign of a text. -/
def joinedSigns : Nat → List Int → List Nat
  | _, [] => []
  | start, value :: rest =>
    if value < 0 then start :: joinedSigns (start + decimalWidth value) rest
    else joinedSigns (start + decimalWidth value) rest

/-- The digits of a text: what remains without minus signs. -/
def textDigits (text : List Char) : List Char :=
  text.filter (· ≠ '-')

/-- The places of the minus signs, counted in digits. -/
def textSigns : Nat → List Char → List Nat
  | _, [] => []
  | start, symbol :: rest =>
    if symbol = '-' then start :: textSigns start rest else textSigns (start + 1) rest

@[simp] theorem textDigits_nil : textDigits [] = [] := rfl

@[simp] theorem textDigits_sign (rest : List Char) : textDigits ('-' :: rest) = textDigits rest := by
  simp [textDigits]

variable {symbol : Char} {left right : List Char}

theorem textDigits_cons (digit : symbol ≠ '-') (rest : List Char) :
    textDigits (symbol :: rest) = symbol :: textDigits rest := by
  simp [textDigits, digit]

@[simp] theorem textDigits_append (left right : List Char) :
    textDigits (left ++ right) = textDigits left ++ textDigits right :=
  filter_append ..

/-- Every sign stands at or after the start of the count. -/
theorem le_of_mem_textSigns {start place : Nat} {text : List Char}
    (member : place ∈ textSigns start text) : start ≤ place := by
  induction text generalizing start with
  | nil => simp [textSigns] at member
  | cons symbol rest ih =>
    simp only [textSigns] at member
    split at member
    · rcases mem_cons.mp member with rfl | later
      · exact le_rfl
      · exact ih later
    · have := ih member
      omega

variable (start : Nat) (value : Int) (values : List Int)

theorem textSigns_append (left right : List Char) : textSigns start (left ++ right) =
      textSigns start left ++ textSigns (start + (textDigits left).length) right := by
  induction left generalizing start with
  | nil => simp [textSigns]
  | cons symbol rest ih =>
    by_cases sign : symbol = '-'
    · subst sign
      simp [textSigns, ih]
    · simp only [cons_append, textSigns, sign, if_false, textDigits_cons sign, length_cons, ih]
      congr 2
      omega

/-- A text is determined by its digits and the places of its signs. -/
theorem text_eq_of_digits_signs {start : Nat} (digits : textDigits left = textDigits right)
    (signs : textSigns start left = textSigns start right) : left = right := by
  induction left generalizing start right with
  | nil =>
    cases right with
    | nil => rfl
    | cons symbol rest =>
      by_cases sign : symbol = '-'
      · simp [textSigns, sign] at signs
      · simp [textDigits_cons sign] at digits
  | cons symbol rest ih =>
    by_cases sign : symbol = '-'
    · subst sign
      cases right with
      | nil => simp [textSigns] at signs
      | cons other others =>
        by_cases otherSign : other = '-'
        · subst otherSign
          simp only [textSigns, if_true, List.cons.injEq, true_and] at signs
          rw [ih (by simpa using digits) signs]
        · simp only [textSigns, if_true, otherSign, if_false] at signs
          have inside : start ∈ textSigns (start + 1) others := by
            rw [← signs]
            exact mem_cons_self
          have := le_of_mem_textSigns inside
          omega
    · cases right with
      | nil => simp [textDigits_cons sign] at digits
      | cons other others =>
        by_cases otherSign : other = '-'
        · simp only [textSigns, otherSign, if_true, sign, if_false] at signs
          have inside : start ∈ textSigns (start + 1) rest := by
            rw [signs]
            exact mem_cons_self
          have := le_of_mem_textSigns inside
          omega
        · rw [textDigits_cons sign, textDigits_cons otherSign, List.cons.injEq] at digits
          simp only [textSigns, sign, otherSign, if_false] at signs
          rw [digits.1, ih digits.2 signs]

private theorem ne_sign_of_isDigit {symbol : Char} (digit : symbol.isDigit = true) : symbol ≠ '-' := by
  rintro rfl
  exact absurd digit (by decide)

private theorem isDigit_of_mem_digits {number : Nat} {symbol : Char}
    (member : symbol ∈ toDigits 10 number) : symbol.isDigit = true :=
  isDigit_of_mem_toDigits (by decide) (by decide) member

private theorem textDigits_digits (number : Nat) :
    textDigits (toDigits 10 number) = toDigits 10 number :=
  filter_eq_self.mpr fun symbol member => by
    simpa using ne_sign_of_isDigit (isDigit_of_mem_digits member)

theorem textSigns_of_digits {text : List Char} (digits : ∀ symbol ∈ text, symbol ≠ '-') :
    textSigns start text = [] := by
  induction text generalizing start with
  | nil => rfl
  | cons symbol rest ih =>
    simp only [textSigns, digits symbol (by simp), if_false]
    exact ih _ fun other member => digits other (by simp [member])

@[simp] theorem textDigits_decimalText : textDigits (decimalText value) = toDigits 10 value.natAbs := by
  unfold decimalText
  split <;> simp [textDigits_digits]

theorem length_toDigits (number : Nat) : (toDigits 10 number).length = log 10 number + 1 := by
  apply le_antisymm
  · exact (length_toDigits_le_iff (by decide) (by omega)).mpr (lt_pow_succ_log_self (by decide) number)
  · have positive : 0 < (toDigits 10 number).length := length_toDigits_pos
    have below := (length_toDigits_le_iff (b := 10) (n := number) (by decide) positive).mp le_rfl
    exact log_lt_of_lt_pow' (by omega) below

theorem textSigns_decimalText : textSigns start (decimalText value) = if value < 0 then [start] else [] := by
  have plain : textSigns start (toDigits 10 value.natAbs) = [] :=
    textSigns_of_digits start fun symbol member => ne_sign_of_isDigit (isDigit_of_mem_digits member)
  unfold decimalText
  split <;> simp [textSigns, plain]

/-- The digits of the joined text are those of the values in order. -/
theorem length_textDigits_joinedText : (textDigits (joinedText values)).length = joinedWidth values := by
  induction values with
  | nil => rfl
  | cons value rest ih =>
    simp only [joinedText, joinedWidth] at ih
    simp [joinedText, joinedWidth, ih, length_toDigits, decimalWidth]

theorem textSigns_joinedText : textSigns start (joinedText values) = joinedSigns start values := by
  induction values generalizing start with
  | nil => rfl
  | cons value rest ih =>
    simp only [joinedText, flatMap_cons] at ih ⊢
    rw [textSigns_append, textSigns_decimalText, ih, textDigits_decimalText, length_toDigits]
    simp only [joinedSigns, decimalWidth]
    split <;> simp

theorem isDigit_of_mem_joinedText {values : List Int} (member : symbol ∈ textDigits (joinedText values)) :
    symbol.isDigit = true := by
  induction values with
  | nil => simp [joinedText] at member
  | cons value rest ih =>
    simp only [joinedText, flatMap_cons, textDigits_append, textDigits_decimalText, mem_append] at member ih
    rcases member with first | later
    · exact isDigit_of_mem_digits first
    · exact ih later

theorem ofDigitChars_joinedText : ofDigitChars 10 (textDigits (joinedText values)) 0 = joinedNumber values := by
  induction values with
  | nil => rfl
  | cons value rest ih =>
    have width := length_textDigits_joinedText rest
    simp only [joinedText] at ih width
    simp only [joinedText, flatMap_cons, textDigits_append, textDigits_decimalText,
      ofDigitChars_append, ofDigitChars_ten_toDigits]
    rw [ofDigitChars_eq_ofDigitChars_zero, ih, width, joinedNumber, mul_comm]

private theorem digitValue_lt {symbol : Char} (digit : symbol.isDigit = true) :
    48 ≤ symbol.toNat ∧ symbol.toNat - 48 < 10 := by
  have bounds : 48 ≤ symbol.val ∧ symbol.val ≤ 57 := by simpa [Char.isDigit] using digit
  have lower : (48 : Nat) ≤ symbol.val.toNat := bounds.1
  have upper : symbol.val.toNat ≤ 57 := bounds.2
  have same : symbol.toNat = symbol.val.toNat := rfl
  omega

theorem ofDigitChars_lt {digits : List Char} (valid : ∀ symbol ∈ digits, symbol.isDigit = true) :
    Nat.ofDigitChars 10 digits 0 < 10 ^ digits.length := by
  induction digits with
  | nil => simp
  | cons symbol rest ih =>
    have tail := ih fun other member => valid other (by simp [member])
    have head := digitValue_lt (valid symbol (by simp))
    rw [Nat.ofDigitChars_cons, Nat.ofDigitChars_eq_ofDigitChars_zero, length_cons]
    have bound : 10 ^ rest.length * (10 * 0 + (symbol.toNat - '0'.toNat)) ≤ 10 ^ rest.length * 9 := by
      apply Nat.mul_le_mul_left
      have zero : '0'.toNat = 48 := rfl
      omega
    omega

/-- Digit texts of one length and number are equal. -/
theorem digits_eq_of_number (leftValid : ∀ symbol ∈ left, symbol.isDigit = true)
    (rightValid : ∀ symbol ∈ right, symbol.isDigit = true) (width : left.length = right.length)
    (number : Nat.ofDigitChars 10 left 0 = Nat.ofDigitChars 10 right 0) : left = right := by
  induction left generalizing right with
  | nil => exact (length_eq_zero_iff.mp width.symm).symm
  | cons symbol rest ih =>
    cases right with
    | nil => simp at width
    | cons other others =>
      have leftTail : ∀ item ∈ rest, item.isDigit = true := fun item member => leftValid item (by simp [member])
      have rightTail : ∀ item ∈ others, item.isDigit = true := fun item member => rightValid item (by simp [member])
      have leftHead := digitValue_lt (leftValid symbol (by simp))
      have rightHead := digitValue_lt (rightValid other (by simp))
      have leftSmall := ofDigitChars_lt leftTail
      have rightSmall := ofDigitChars_lt rightTail
      have sameWidth : rest.length = others.length := by simpa using width
      rw [Nat.ofDigitChars_cons, Nat.ofDigitChars_cons, Nat.ofDigitChars_eq_ofDigitChars_zero,
        Nat.ofDigitChars_eq_ofDigitChars_zero (l := others), ← sameWidth] at number
      rw [← sameWidth] at rightSmall
      have quotient := congrArg (· / 10 ^ rest.length) number
      have remainder := congrArg (· % 10 ^ rest.length) number
      have positive : 0 < 10 ^ rest.length := Nat.pow_pos (by decide)
      simp only [Nat.mul_add_div positive, Nat.div_eq_of_lt leftSmall, Nat.div_eq_of_lt rightSmall,
        Nat.mul_add_mod, Nat.mod_eq_of_lt leftSmall, Nat.mod_eq_of_lt rightSmall] at quotient remainder
      have zero : '0'.toNat = 48 := rfl
      have sameHead : symbol = other := Char.toNat_inj.mp (by omega)
      rw [sameHead, ih leftTail rightTail sameWidth remainder]

/-- Joined texts agree exactly when digit count, number and sign places do. -/
theorem joinedText_eq_iff (left right : List Int) : joinedText left = joinedText right ↔
      joinedWidth left = joinedWidth right ∧ joinedNumber left = joinedNumber right ∧
        joinedSigns 0 left = joinedSigns 0 right := by
  constructor
  · intro equal
    refine ⟨?_, ?_, ?_⟩
    · rw [← length_textDigits_joinedText, equal, length_textDigits_joinedText]
    · rw [← ofDigitChars_joinedText, equal, ofDigitChars_joinedText]
    · rw [← textSigns_joinedText, equal, textSigns_joinedText]
  · rintro ⟨width, number, signs⟩
    refine text_eq_of_digits_signs ?_ (?_ : textSigns 0 _ = textSigns 0 _)
    · apply digits_eq_of_number (fun _ => isDigit_of_mem_joinedText) (fun _ => isDigit_of_mem_joinedText)
      · rw [length_textDigits_joinedText, length_textDigits_joinedText, width]
      · rw [ofDigitChars_joinedText, ofDigitChars_joinedText, number]
    · rw [textSigns_joinedText, textSigns_joinedText, signs]

theorem decimalText_injective {left right : Int} (equal : decimalText left = decimalText right) : left = right := by
  have digits := congrArg textDigits equal
  have signs := congrArg (textSigns 0) equal
  rw [textDigits_decimalText, textDigits_decimalText] at digits
  rw [textSigns_decimalText, textSigns_decimalText] at signs
  have magnitude : left.natAbs = right.natAbs := by
    have numbers := congrArg (ofDigitChars 10 · 0) digits
    simpa only [ofDigitChars_ten_toDigits] using numbers
  split at signs <;> split at signs
  · omega
  · cases signs
  · cases signs
  · omega

theorem decimalText_ne_nil : decimalText value ≠ [] := by
  have positive : 0 < (toDigits 10 value.natAbs).length := length_toDigits_pos
  unfold decimalText
  split
  · simp
  · exact length_pos_iff.mp positive

/-- A decimal text holds digits and minus signs. -/
theorem mem_decimalText {value : Int} (member : symbol ∈ decimalText value) :
    symbol = '-' ∨ symbol.isDigit = true := by
  unfold decimalText at member
  split at member
  · rcases mem_cons.mp member with sign | digit
    · exact .inl sign
    · exact .inr (isDigit_of_mem_digits digit)
  · exact .inr (isDigit_of_mem_digits member)

/-- Texts that agree up to the first stop agree around it. -/
theorem append_stop_inj {Stop : Char → Prop} {leftRest rightRest : List Char} {leftStop rightStop : Char}
    (leftPlain : ∀ symbol ∈ left, ¬ Stop symbol) (rightPlain : ∀ symbol ∈ right, ¬ Stop symbol)
    (leftStops : Stop leftStop) (rightStops : Stop rightStop)
    (equal : left ++ leftStop :: leftRest = right ++ rightStop :: rightRest) :
    left = right ∧ leftStop :: leftRest = rightStop :: rightRest := by
  induction left generalizing right with
  | nil =>
    cases right with
    | nil => exact ⟨rfl, equal⟩
    | cons symbol rest =>
      obtain ⟨rfl, -⟩ := List.cons.inj equal
      exact absurd leftStops (rightPlain leftStop mem_cons_self)
  | cons symbol rest ih =>
    cases right with
    | nil =>
      obtain ⟨rfl, -⟩ := List.cons.inj equal
      exact absurd rightStops (leftPlain symbol mem_cons_self)
    | cons other others =>
      obtain ⟨rfl, tails⟩ := List.cons.inj equal
      obtain ⟨rfl, stops⟩ := ih (fun item member => leftPlain item (mem_cons_of_mem _ member))
        (fun item member => rightPlain item (mem_cons_of_mem _ member)) tails
      exact ⟨rfl, stops⟩

end Straks.DecimalText
