import EffectPrograms.Proofs.Spelling
import EffectPrograms.Settings.Reader

/-!
# Readers of single parts

What stands between the brackets, commas and colons of a text are blanks, strings and numbers. Each
has a reader, and here it is said what the reader takes off the front of a text that begins with a
spelling of such a part. A skipped string or number ends where a read one ends.

How far a number reaches is seen only by what follows it, so that the statements on numbers need a
rest that ends them (`Ends`). An integer is read as one just if it fits a word
(`unsignedNumber_toDigits`), and whatever is read as an integer has digits only
(`digits_of_integer`).
-/

namespace EffectPrograms

/-- The number as a natural number of a word, if it is one. -/
def Number.word? : Number → Option Nat
  | .integer (.ofNat n) => if n < Nat.pow 2 64 then some n else none
  | _ => none

namespace Value

open Reader

/-! ## Blanks -/

theorem Padding.skipBlanks_eq {cs rest : List Char} (h : Padding cs rest) :
    skipBlanks cs = skipBlanks rest := by
  induction h with
  | none cs => rfl
  | blank hc _ ih => rwa [skipBlanks, List.dropWhile_cons_of_pos hc]

/-- Blanks are skipped up to a character that is none. -/
theorem Padding.skipBlanks_cons {c : Char} {cs rest : List Char} (h : Padding cs (c :: rest))
    (hc : isBlank c = false) : skipBlanks cs = c :: rest := by
  rw [h.skipBlanks_eq, skipBlanks, List.dropWhile_cons_of_neg (by simp [hc])]

/-! ## Strings -/

theorem not_escape_u {e c : Char} (h : shortEscape? e = some c) : e ≠ 'u' := by
  rintro rfl
  simp [shortEscape?] at h

/-- The characters of a string are read. -/
theorem Characters.stringBody_eq {body cs rest : List Char} (h : Characters body cs rest) :
    stringBody none cs = some (body, rest) := by
  induction h with
  | close rest => rfl
  | plain hquote hslash hcontrol _ ih =>
    simp [stringBody, hslash, Nat.not_lt.2 hcontrol, ih]
  | short he _ ih => simp [stringBody, not_escape_u he, he, ih]
  | unit hunit hhigh hlow _ ih =>
    simp [stringBody, hunit, hhigh, hlow, ih]
  | pair hhigh hhalf hlow hhalf' _ ih =>
    simp [stringBody, hhigh, hhalf, hlow, hhalf', ih]

/-- They are also skipped. -/
theorem Characters.skipString_eq {body cs rest : List Char} (h : Characters body cs rest) :
    Settings.Reader.skipString cs = some rest := by
  induction h with
  | close rest => rfl
  | plain hquote hslash hcontrol _ ih =>
    simp [Settings.Reader.skipString, hslash, Nat.not_lt.2 hcontrol, ih]
  | short he _ ih => simp [Settings.Reader.skipString, not_escape_u he, he, ih]
  | unit hunit _ _ _ ih =>
    simp [Settings.Reader.skipString, hunit, ih]
  | pair hhigh _ hlow _ _ ih =>
    simp [Settings.Reader.skipString, hhigh, hlow, ih]

/-! ## What ends a number -/

/-- Nothing follows, or a blank, or a mark between parts. -/
def Ends (rest : List Char) : Prop :=
  ∀ c ∈ rest.head?, isBlank c = true ∨ c = ',' ∨ c = ']' ∨ c = '\x7d'

/-- Blanks may stand before what ends a number. -/
theorem Ends.of_padding {cs rest : List Char} (hends : Ends rest) (h : Padding cs rest) :
    Ends cs := by
  cases h with
  | none => exact hends
  | blank hc _ =>
    rintro c ⟨⟩
    exact .inl hc

/-- No digit follows. -/
def NoDigit (cs : List Char) : Prop := ∀ c ∈ cs.head?, c.isDigit = false

theorem not_of_ends {c : Char} (h : isBlank c = true ∨ c = ',' ∨ c = ']' ∨ c = '\x7d') :
    c.isDigit = false ∧ c ≠ '.' ∧ c ≠ 'e' ∧ c ≠ 'E' := by
  simp only [isBlank, Bool.or_eq_true, beq_iff_eq] at h
  rcases h with (((rfl | rfl) | rfl) | rfl) | rfl | rfl | rfl <;> decide

/-- What ends a number goes on with no part of it. -/
theorem Ends.head {rest : List Char} (h : Ends rest) :
    ∀ c ∈ rest.head?, c.isDigit = false ∧ c ≠ '.' ∧ c ≠ 'e' ∧ c ≠ 'E' :=
  fun c hc => not_of_ends (h c hc)

theorem Ends.noDigit {rest : List Char} (h : Ends rest) : NoDigit rest :=
  fun c hc => (h.head c hc).1

/-! ## Parts of a number -/

variable {digits tail : List Char}

/-- Digits are taken up to what is no digit. -/
theorem takeWhile_isDigit (h : IsDigits digits) (htail : NoDigit tail) :
    (digits ++ tail).takeWhile Char.isDigit = digits ∧
      (digits ++ tail).dropWhile Char.isDigit = tail := by
  rw [List.takeWhile_append_of_pos h.2, List.dropWhile_append_of_pos h.2]
  cases tail with
  | nil => simp
  | cons c rest => simp [htail c rfl]

theorem wholeDigits_eq (h : IsWhole digits) (htail : NoDigit tail) :
    wholeDigits (digits ++ tail) = some (digits, tail) := by
  obtain ⟨htake, hdrop⟩ := takeWhile_isDigit h.1 htail
  unfold wholeDigits
  rw [htake, hdrop]
  dsimp only
  split
  · exact absurd rfl h.1.1
  · exact absurd (h.2 rfl) (by simp)
  · rfl

/-- The digits after a point are read, and noticed if there are any. -/
theorem fractionDigits_eq {fraction : List Char} (h : IsFraction fraction) (htail : NoDigit tail)
    (hpoint : ∀ c ∈ tail.head?, c ≠ '.') :
    ∃ found, fractionDigits (fraction ++ tail) = some (found, tail) ∧
      (found = none → fraction = []) := by
  cases h with
  | none =>
    refine ⟨none, ?_, fun _ => rfl⟩
    cases tail with
    | nil => rfl
    | cons c rest => simp [fractionDigits, hpoint c rfl]
  | @some digits hdigits =>
    obtain ⟨htake, hdrop⟩ := takeWhile_isDigit hdigits htail
    exact ⟨some digits, by simp [fractionDigits, htake, hdrop, hdigits.1], by simp⟩

theorem exponentDigits_eq (negative : Bool) (h : IsDigits digits) (htail : NoDigit tail) :
    ∃ power, exponentDigits negative (digits ++ tail) = some (some power, tail) := by
  obtain ⟨htake, hdrop⟩ := takeWhile_isDigit h htail
  exact ⟨_, by simp [exponentDigits, htake, hdrop, h.1]; rfl⟩

/-- An exponent is read, and noticed if there is one. -/
theorem exponent_eq {power rest : List Char} (h : IsPower power) (hends : Ends rest) :
    ∃ found, exponent (power ++ rest) = some (found, rest) ∧ (found = none → power = []) := by
  cases h with
  | none =>
    refine ⟨none, ?_, fun _ => rfl⟩
    cases rest with
    | nil => rfl
    | cons c rest =>
      obtain ⟨-, -, hlower, hupper⟩ := hends.head c rfl
      simp [exponent, hlower, hupper]
  | @unsigned _ digits hmark hdigits =>
    obtain ⟨found, hfound⟩ := exponentDigits_eq false hdigits hends.noDigit
    refine ⟨some found, ?_, by simp⟩
    -- The first digit is no sign.
    obtain ⟨d, later, rfl⟩ := List.exists_cons_of_ne_nil hdigits.1
    have hd : d ≠ '+' ∧ d ≠ '-' := by
      have hdigit := hdigits.2 d (List.mem_cons_self ..)
      constructor <;> rintro rfl <;> simp at hdigit
    rcases hmark with rfl | rfl <;> simpa [exponent, hd] using hfound
  | signed hmark hsign hdigits =>
    obtain ⟨plus, hplus⟩ := exponentDigits_eq false hdigits hends.noDigit
    obtain ⟨minus, hminus⟩ := exponentDigits_eq true hdigits hends.noDigit
    rcases hsign with rfl | rfl
    · exact ⟨some plus, by rcases hmark with rfl | rfl <;> simpa [exponent] using hplus, by simp⟩
    · exact ⟨some minus, by rcases hmark with rfl | rfl <;> simpa [exponent] using hminus, by simp⟩

/-! ## Numerals -/

namespace Numeral

variable {x : Numeral} {rest : List Char}

/-- An exponent goes on with no digit and no point. -/
theorem head_power (h : IsPower x.power) (hends : Ends rest) :
    ∀ c ∈ (x.power ++ rest).head?, c.isDigit = false ∧ c ≠ '.' := by
  cases hpower : x.power with
  | nil => exact fun c hc => ⟨(hends.head c hc).1, (hends.head c hc).2.1⟩
  | cons mark later =>
    rintro c ⟨⟩
    rw [hpower] at h
    cases h with
    | unsigned hmark _ | signed hmark _ _ => rcases hmark with rfl | rfl <;> decide

/-- Nor does a fraction go on with a digit. -/
theorem head_fraction (h : x.WellFormed) (hends : Ends rest) :
    NoDigit (x.fraction ++ (x.power ++ rest)) := by
  cases hfraction : x.fraction with
  | nil => exact fun c hc => (head_power h.power hends c hc).1
  | cons point later =>
    rintro c ⟨⟩
    have hpoint := h.fraction
    rw [hfraction] at hpoint
    cases hpoint
    decide

/-- The parts of a numeral are taken one after another. -/
theorem WellFormed.parts (h : x.WellFormed) (hends : Ends rest) :
    ∃ fraction power,
      wholeDigits (x.unsignedText ++ rest) = some (x.whole, x.fraction ++ (x.power ++ rest)) ∧
      fractionDigits (x.fraction ++ (x.power ++ rest)) = some (fraction, x.power ++ rest) ∧
      exponent (x.power ++ rest) = some (power, rest) ∧
      (fraction = none → power = none → x.fraction ++ x.power = []) := by
  have hwhole := wholeDigits_eq h.whole (head_fraction h hends)
  have htail := head_power h.power hends
  obtain ⟨fraction, hfraction, hnone⟩ := fractionDigits_eq h.fraction
    (fun c hc => (htail c hc).1) fun c hc => (htail c hc).2
  obtain ⟨power, hpower, hnone'⟩ := exponent_eq h.power hends
  refine ⟨fraction, power, ?_, hfraction, hpower, fun hf hp => ?_⟩
  · rw [← hwhole]
    simp [unsignedText]
  · rw [hnone hf, hnone' hp, List.append_nil]

/-- What follows the sign begins with a digit. -/
theorem WellFormed.head (h : x.WellFormed) :
    ∃ d later, x.unsignedText = d :: later ∧ d.isDigit = true := by
  obtain ⟨d, later, hwhole⟩ := List.exists_cons_of_ne_nil h.whole.1.1
  refine ⟨d, _, by rw [unsignedText, hwhole]; rfl, ?_⟩
  exact h.whole.1.2 d (hwhole ▸ List.mem_cons_self ..)

/-- A numeral is skipped. -/
theorem WellFormed.skipNumber_eq (h : x.WellFormed) (hends : Ends rest) :
    Settings.Reader.skipNumber (x.text ++ rest) = some rest := by
  obtain ⟨fraction, power, hwhole, hfraction, hpower, -⟩ := h.parts hends
  unfold Settings.Reader.skipNumber text
  cases x.negative with
  | true => simp [hwhole, hfraction, hpower]
  | false =>
    -- The first digit is no sign.
    obtain ⟨d, later, htext, hdigit⟩ := h.head
    have hd : d ≠ '-' := by
      rintro rfl
      simp at hdigit
    rw [htext] at hwhole ⊢
    simp only [List.cons_append] at hwhole
    simp [hd, hwhole, hfraction, hpower]

end Numeral

/-! ## Numbers -/

/-- The number that digits stand for is not less than the one that they go on from. -/
theorem le_ofDigitChars (digits : List Char) (significand : Nat) :
    significand ≤ Nat.ofDigitChars 10 digits significand := by
  induction digits generalizing significand with
  | nil => simp
  | cons c later ih =>
    rw [Nat.ofDigitChars_cons]
    exact le_trans (by omega) (ih _)

/-- All digits are absorbed just if the number that they stand for fits a word. -/
theorem absorb_eq_nil_iff {significand n : Nat} {digits : List Char}
    (h : significand < Nat.pow 2 64) :
    absorb significand digits = (n, []) ↔
      Nat.ofDigitChars 10 digits significand = n ∧ n < Nat.pow 2 64 := by
  induction digits generalizing significand with
  | nil =>
    simp only [absorb, Nat.ofDigitChars_nil, Prod.mk.injEq, and_true]
    exact ⟨fun heq => ⟨heq, heq ▸ h⟩, And.left⟩
  | cons c later ih =>
    rw [Nat.ofDigitChars_cons, Nat.mul_comm, absorb]
    split
    · next hfits => exact ih hfits
    · next hfull =>
      have hle := le_ofDigitChars later (significand * 10 + (c.toNat - '0'.toNat))
      simp only [Prod.mk.injEq, reduceCtorEq, and_false, false_iff]
      omega

/-- A whole number below the greatest word is read as an integer. -/
theorem unsignedNumber_toDigits {n : Nat} (h : n < Nat.pow 2 64) (negative : Bool)
    {rest : List Char} (hends : Ends rest) :
    unsignedNumber negative (Nat.toDigits 10 n ++ rest) =
      some (wholeNumber negative n, rest) := by
  have hwhole := wholeDigits_eq (isWhole_toDigits n) hends.noDigit
  have hall : absorb 0 (Nat.toDigits 10 n) = (n, []) :=
    (absorb_eq_nil_iff (by decide)).2 ⟨Nat.ofDigitChars_ten_toDigits, h⟩
  have hfraction : fractionDigits rest = some (none, rest) := by
    cases rest with
    | nil => rfl
    | cons c later => simp [fractionDigits, (hends.head c rfl).2.1]
  have hpower : exponent rest = some (none, rest) := by
    cases rest with
    | nil => rfl
    | cons c later => simp [exponent, (hends.head c rfl).2.2]
  simp [unsignedNumber, hwhole, hall, hfraction, hpower]

/-- A number that is read as an integer consists of digits, all of which fit a word. -/
theorem digits_of_integer {negative : Bool} {cs rest : List Char} {n : Int}
    (h : unsignedNumber negative cs = some (.integer n, rest)) :
    ∃ whole cs' cs'' significand, wholeDigits cs = some (whole, cs') ∧
      fractionDigits cs' = some (none, cs'') ∧ exponent cs'' = some (none, rest) ∧
      absorb 0 whole = (significand, []) ∧ wholeNumber negative significand = .integer n := by
  simp only [unsignedNumber, Option.bind_eq_bind, Option.bind_eq_some_iff, Prod.exists] at h
  obtain ⟨whole, cs', hwhole, fraction, cs'', hfraction, power, rest', hpower, h⟩ := h
  split at h
  · next hdropped =>
    obtain ⟨hinteger, rfl⟩ := Prod.mk.inj (Option.some.inj h)
    exact ⟨whole, cs', cs'', _, hwhole, hfraction, hpower, Prod.ext rfl hdropped, hinteger⟩
  · obtain ⟨x, -, hx⟩ := Option.bind_eq_some_iff.1 h
    simp at hx

/-- Below zero stays below zero. -/
theorem neg_of_wholeNumber {significand : Nat} {n : Int}
    (h : wholeNumber true significand = .integer n) : n < 0 := by
  unfold wholeNumber at h
  simp only [if_true] at h
  split at h
  · simp at h
  · next hzero =>
    split at h
    · simp only [Number.integer.injEq] at h
      simp only [beq_iff_eq] at hzero
      omega
    · simp at h

namespace Numeral

variable {x : Numeral} {n : Number} {rest : List Char}

/-- A numeral is read from its sign on. -/
theorem WellFormed.number_eq (h : x.WellFormed) (rest : List Char) :
    Reader.number (x.text ++ rest) = unsignedNumber x.negative (x.unsignedText ++ rest) := by
  unfold Reader.number text
  cases x.negative with
  | true => rfl
  | false =>
    obtain ⟨d, later, htext, hdigit⟩ := h.head
    have hd : d ≠ '-' := by
      rintro rfl
      simp at hdigit
    rw [htext]
    simp [hd]

/-- The numeral of a natural number of a word is read as this number. -/
theorem Denotes.number_of_word {k : Nat} (h : x.Denotes n) (hword : n.word? = some k)
    (hends : Ends rest) : Reader.number (x.text ++ rest) = some (.integer k, rest) := by
  cases h with
  | integer n =>
    rw [(wellFormed_ofInt n).number_eq]
    cases n with
    | ofNat n =>
      obtain ⟨hfits, rfl⟩ : n < Nat.pow 2 64 ∧ n = k := by simpa [Number.word?] using hword
      have hsign : (ofInt (.ofNat n)).negative = false :=
        decide_eq_false (Int.not_lt.2 (Int.natCast_nonneg n))
      rw [hsign]
      simpa [ofInt, unsignedText, wholeNumber] using unsignedNumber_toDigits hfits false hends
    | negSucc n => simp [Number.word?] at hword
  | double | large | minusZero => simp [Number.word?] at hword

/-- From any other numeral at most a number below zero is read, if it is an integer. -/
theorem WellFormed.neg_of_number {m : Int} {rest' : List Char} (hx : x.WellFormed)
    (h : x.Denotes n) (hword : n.word? = none) (hends : Ends rest)
    (hread : Reader.number (x.text ++ rest) = some (.integer m, rest')) : m < 0 := by
  rw [hx.number_eq] at hread
  obtain ⟨whole, cs', cs'', significand, hwhole, hfraction, hpower, habsorb, hinteger⟩ :=
    digits_of_integer hread
  cases hsign : x.negative with
  | true => exact neg_of_wholeNumber (hsign ▸ hinteger)
  | false =>
    -- Nothing but digits is left, and they do not fit a word.
    obtain ⟨fraction, power, hwhole', hfraction', hpower', hnone⟩ := hx.parts hends
    obtain ⟨rfl, rfl⟩ := Prod.mk.inj (Option.some.inj (hwhole.symm.trans hwhole'))
    obtain ⟨rfl, rfl⟩ := Prod.mk.inj (Option.some.inj (hfraction.symm.trans hfraction'))
    obtain ⟨rfl, -⟩ := Prod.mk.inj (Option.some.inj (hpower.symm.trans hpower'))
    rw [absorb_eq_nil_iff (by decide)] at habsorb
    obtain ⟨rfl, hfits⟩ := habsorb
    cases h with
    | integer n =>
      cases n with
      | ofNat n =>
        have hfits' : n < Nat.pow 2 64 := by simpa [ofInt] using hfits
        simp [Number.word?, hfits'] at hword
      | negSucc n => simp [ofInt] at hsign
    | double _ _ hparts => exact absurd (hnone rfl rfl) hparts
    | large n _ hlarge =>
      have hfits' : n.natAbs < Nat.pow 2 64 := by simpa [ofInt] using hfits
      have hpositive : ¬ n < 0 := by simpa [ofInt] using hsign
      omega
    | minusZero => simp at hsign

end Numeral

end Value

end EffectPrograms
