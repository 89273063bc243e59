import EffectPrograms.Value.Reader
import Mathlib.Data.Nat.Basic
import Mathlib.Order.Basic

/-!
# Spellings of values

One value can be written in many ways. Blanks may stand wherever two parts meet, a character of a
string may stand for itself or be escaped, and a number with a fraction or an exponent has many
forms. `Value.Spelling v cs rest` says all of them at once: the text `cs` begins with some spelling
of the value `v`, and `rest` is what follows it. The members of an object are those of the text, in
its order and with every name as often as it stands there.

The size of a number with a fraction or an exponent is left open, because it is rounded when it is
read and when it is written. So `1.0` spells every floating-point number, but no integer.
-/

namespace EffectPrograms.Value

/-! ## Parts -/

/-- The texts differ by blanks at the front of the first. -/
inductive Padding : List Char → List Char → Prop where
  | none (cs : List Char) : Padding cs cs
  | blank {c : Char} {cs rest : List Char} :
      Reader.isBlank c = true → Padding cs rest → Padding (c :: cs) rest

/-- The characters of a string are spelled up to its closing quote. -/
inductive Characters : List Char → List Char → List Char → Prop where
  | close (rest : List Char) : Characters [] ('"' :: rest) rest
  | plain {c : Char} {body cs rest : List Char} : c ≠ '"' → c ≠ '\\' → 0x20 ≤ c.toNat →
      Characters body cs rest → Characters (c :: body) (c :: cs) rest
  | short {e c : Char} {body cs rest : List Char} : Reader.shortEscape? e = some c →
      Characters body cs rest → Characters (c :: body) ('\\' :: e :: cs) rest
  | unit {a b c d : Char} {n : Nat} {body cs rest : List Char} :
      Reader.hexUnit? a b c d = some n → Reader.isHighHalf n = false → Reader.isLowHalf n = false →
      Characters body cs rest →
        Characters (Char.ofNat n :: body) ('\\' :: 'u' :: a :: b :: c :: d :: cs) rest
  | pair {a b c d a' b' c' d' : Char} {high low : Nat} {body cs rest : List Char} :
      Reader.hexUnit? a b c d = some high → Reader.isHighHalf high = true →
      Reader.hexUnit? a' b' c' d' = some low → Reader.isLowHalf low = true →
      Characters body cs rest →
        Characters (Reader.joinHalves high low :: body)
          ('\\' :: 'u' :: a :: b :: c :: d :: '\\' :: 'u' :: a' :: b' :: c' :: d' :: cs) rest

/-- Digits, at least one. -/
def IsDigits (cs : List Char) : Prop := cs ≠ [] ∧ ∀ c ∈ cs, c.isDigit = true

/-- The digits of a whole number: a zero at the front stands alone. -/
def IsWhole (cs : List Char) : Prop := IsDigits cs ∧ (cs.head? = some '0' → cs = ['0'])

/-- A point with digits after it, or nothing. -/
inductive IsFraction : List Char → Prop where
  | none : IsFraction []
  | some {digits : List Char} : IsDigits digits → IsFraction ('.' :: digits)

/-- A mark with digits after it, under a sign or not, or nothing. -/
inductive IsPower : List Char → Prop where
  | none : IsPower []
  | unsigned {mark : Char} {digits : List Char} : mark = 'e' ∨ mark = 'E' → IsDigits digits →
      IsPower (mark :: digits)
  | signed {mark sign : Char} {digits : List Char} : mark = 'e' ∨ mark = 'E' →
      sign = '+' ∨ sign = '-' → IsDigits digits → IsPower (mark :: sign :: digits)

/-- A number as it is written. -/
structure Numeral where
  /-- Whether a minus stands in front. -/
  negative : Bool
  whole : List Char
  /-- The digits after the point, with the point. -/
  fraction : List Char
  /-- The exponent, with its mark. -/
  power : List Char

namespace Numeral

/-- What follows the sign. -/
def unsignedText (x : Numeral) : List Char := x.whole ++ (x.fraction ++ x.power)

/-- The numeral as text. -/
def text (x : Numeral) : List Char := (if x.negative then ['-'] else []) ++ x.unsignedText

/-- Every part is written as it should be. -/
structure WellFormed (x : Numeral) : Prop where
  whole : IsWhole x.whole
  fraction : IsFraction x.fraction
  power : IsPower x.power

/-- The numeral of an integer has digits only, under a minus if it is negative. -/
def ofInt (n : Int) : Numeral := ⟨n < 0, Nat.toDigits 10 n.natAbs, [], []⟩

/-- What a numeral stands for. A number with a fraction or an exponent is no integer, whatever its
size, nor is zero under a minus. -/
inductive Denotes : Numeral → Number → Prop where
  | integer (n : Int) : Denotes (ofInt n) (.integer n)
  | double (numeral : Numeral) (x : Double) : numeral.fraction ++ numeral.power ≠ [] →
      Denotes numeral (.double x)
  /-- The integers of a word are the only ones that stay integers. -/
  | large (n : Int) (x : Double) : n < -(Nat.pow 2 63 : Nat) ∨ (Nat.pow 2 64 : Nat) ≤ n →
      Denotes (ofInt n) (.double x)
  | minusZero : Denotes ⟨true, ['0'], [], []⟩ (.double (Double.zero true))

end Numeral

/-! ## Values -/

/-- The name of a member is spelled up to its colon. -/
inductive Name : String → List Char → List Char → Prop where
  | mk {name : String} {cs body after rest : List Char} : Padding cs ('"' :: body) →
      Characters name.toList body after → Padding after (':' :: rest) → Name name cs rest

mutual

/-- The text begins with a spelling of the value. -/
inductive Spelling : Value → List Char → List Char → Prop where
  | null (rest : List Char) : Spelling .null ('n' :: 'u' :: 'l' :: 'l' :: rest) rest
  | yes (rest : List Char) : Spelling (.bool true) ('t' :: 'r' :: 'u' :: 'e' :: rest) rest
  | no (rest : List Char) : Spelling (.bool false) ('f' :: 'a' :: 'l' :: 's' :: 'e' :: rest) rest
  | number {n : Number} {numeral : Numeral} (rest : List Char) : numeral.WellFormed →
      numeral.Denotes n → Spelling (.number n) (numeral.text ++ rest) rest
  | string {s : String} {cs rest : List Char} : Characters s.toList cs rest →
      Spelling (.string s) ('"' :: cs) rest
  | emptyArray {cs rest : List Char} : Padding cs (']' :: rest) →
      Spelling (.array []) ('[' :: cs) rest
  | array {items : List Value} {cs rest : List Char} : Items items cs rest →
      Spelling (.array items) ('[' :: cs) rest
  | emptyObject {cs rest : List Char} : Padding cs ('\x7d' :: rest) →
      Spelling (.object []) ('\x7b' :: cs) rest
  | object {members : List (String × Value)} {cs rest : List Char} : Members members cs rest →
      Spelling (.object members) ('\x7b' :: cs) rest

/-- The same with blanks around the spelling. -/
inductive Padded : Value → List Char → List Char → Prop where
  | mk {v : Value} {cs front after rest : List Char} : Padding cs front → Spelling v front after →
      Padding after rest → Padded v cs rest

/-- The items of a list are spelled up to its closing bracket; there is at least one. -/
inductive Items : List Value → List Char → List Char → Prop where
  | last {v : Value} {cs rest : List Char} : Padded v cs (']' :: rest) → Items [v] cs rest
  | cons {v : Value} {items : List Value} {cs next rest : List Char} : Padded v cs (',' :: next) →
      Items items next rest → Items (v :: items) cs rest

/-- The members of an object are spelled up to its closing bracket; there is at least one. -/
inductive Members : List (String × Value) → List Char → List Char → Prop where
  | last {name : String} {v : Value} {cs front rest : List Char} : Name name cs front →
      Padded v front ('\x7d' :: rest) → Members [(name, v)] cs rest
  | cons {name : String} {v : Value} {members : List (String × Value)}
      {cs front next rest : List Char} : Name name cs front → Padded v front (',' :: next) →
      Members members next rest → Members ((name, v) :: members) cs rest

end

/-- The text spells the value, with nothing but blanks around it. -/
def IsSpelledBy (v : Value) (text : String) : Prop := Padded v text.toList []

/-! ## Numerals of integers -/

/-- Only zero is written with a zero at the front. -/
theorem head?_toDigits_ne {n : Nat} (h : n ≠ 0) : (Nat.toDigits 10 n).head? ≠ some '0' := by
  induction n using Nat.base_induction 10 (by decide) with
  | single m hm => simpa [Nat.toDigits_of_lt_base hm] using h
  | digit m k hk hm ih =>
    rw [← Nat.toDigits_append_toDigits (by decide) hm hk, List.head?_append]
    have hhead := ih (Nat.ne_of_gt hm)
    cases hdigits : Nat.toDigits 10 m with
    | nil => simp at hdigits
    | cons c rest => simpa [hdigits] using hhead

/-- The digits of a natural number are those of a whole number. -/
theorem isWhole_toDigits (n : Nat) : IsWhole (Nat.toDigits 10 n) := by
  refine ⟨⟨Nat.toDigits_ne_nil, fun c => Nat.isDigit_of_mem_toDigits (by decide) (by decide)⟩, ?_⟩
  intro hzero
  by_cases h : n = 0
  · rw [h, Nat.toDigits_zero]
  · exact absurd hzero (head?_toDigits_ne h)

namespace Numeral

variable {x : Numeral}

/-- A numeral is not empty. -/
theorem WellFormed.text_ne_nil (h : x.WellFormed) : x.text ≠ [] := by
  simp [text, unsignedText, h.whole.1.1]

/-- It is how the integer is written. -/
theorem text_ofInt (n : Int) : (ofInt n).text = (toString n).toList := by
  cases n <;> simp [text, unsignedText, ofInt, toString, Int.repr, Int.negSucc_lt_zero]

theorem wellFormed_ofInt (n : Int) : (ofInt n).WellFormed :=
  ⟨isWhole_toDigits _, .none, .none⟩

end Numeral

/-! ## Lengths -/

theorem Padding.length_le {cs rest : List Char} (h : Padding cs rest) :
    rest.length ≤ cs.length := by
  induction h with
  | none cs => exact le_rfl
  | blank _ _ ih => exact ih.trans (Nat.le_succ _)

theorem Characters.length_lt {body cs rest : List Char} (h : Characters body cs rest) :
    rest.length < cs.length := by
  induction h <;> simp only [List.length_cons] at * <;> omega

theorem Name.length_lt {name : String} {cs rest : List Char} (h : Name name cs rest) :
    rest.length < cs.length := by
  obtain ⟨hcs, hbody, hafter⟩ := h
  have hle := hcs.length_le
  have hlt := hbody.length_lt
  have hle' := hafter.length_le
  simp only [List.length_cons] at hle hle'
  omega

mutual

/-- A spelling is not empty. -/
theorem Spelling.length_lt {v : Value} {cs rest : List Char} (h : Spelling v cs rest) :
    rest.length < cs.length :=
  match h with
  | .null _ | .yes _ | .no _ => by simp only [List.length_cons]; omega
  | .number _ hnumeral _ => by
    rw [List.length_append]
    exact Nat.lt_add_of_pos_left (List.length_pos_iff.2 hnumeral.text_ne_nil)
  | .string hbody => hbody.length_lt.trans (Nat.lt_succ_self _)
  | .emptyArray hcs | .emptyObject hcs => Nat.lt_succ_of_lt hcs.length_le
  | .array hitems => hitems.length_lt.trans (Nat.lt_succ_self _)
  | .object hmembers => hmembers.length_lt.trans (Nat.lt_succ_self _)

theorem Padded.length_lt {v : Value} {cs rest : List Char} (h : Padded v cs rest) :
    rest.length < cs.length :=
  match h with
  | .mk hcs hv hafter => hafter.length_le.trans_lt (hv.length_lt.trans_le hcs.length_le)

theorem Items.length_lt {items : List Value} {cs rest : List Char} (h : Items items cs rest) :
    rest.length < cs.length :=
  match h with
  | .last hv => (Nat.lt_succ_self _).trans hv.length_lt
  | .cons hv hrest => hrest.length_lt.trans ((Nat.lt_succ_self _).trans hv.length_lt)

theorem Members.length_lt {members : List (String × Value)} {cs rest : List Char}
    (h : Members members cs rest) : rest.length < cs.length :=
  match h with
  | .last hname hv => (Nat.lt_succ_self _).trans (hv.length_lt.trans hname.length_lt)
  | .cons hname hv hrest =>
    hrest.length_lt.trans ((Nat.lt_succ_self _).trans (hv.length_lt.trans hname.length_lt))

end

end EffectPrograms.Value
