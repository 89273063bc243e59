import EffectPrograms.Proofs.Spelling
import EffectPrograms.Value.Printer
import Mathlib.Tactic.SplitIfs

/-!
# Printed values

What the printer writes over several lines is a spelling of the value, for every value
(`spelling_prettyAt`): strings with all that must be escaped, floating-point numbers in every
layout, and empty and nested lists and objects.
-/

namespace EffectPrograms

/-! ## The shortest decimal -/

namespace Double

variable {x : Double}

/-- Both parts of a power of two are positive. -/
theorem scaled_pos (e : Int) : 0 < (scaled 1 1 e).1 ∧ 0 < (scaled 1 1 e).2 := by
  unfold scaled
  split
  · exact ⟨Nat.one_pos, Nat.mul_pos Nat.one_pos (Nat.pow_pos (by decide))⟩
  · exact ⟨Nat.mul_pos Nat.one_pos (Nat.pow_pos (by decide)), Nat.one_pos⟩

theorem toRatio_pos (c : Decimal) : 0 < c.toRatio.2 := by
  unfold Decimal.toRatio
  split
  · exact Nat.one_pos
  · exact Nat.pow_pos (by decide)

/-- Zero rounds to no other number. -/
theorem digits_ne_zero_of_contains (hx : x.mantissa ≠ 0) {c : Decimal} (h : x.contains c = true) :
    c.digits ≠ 0 := by
  intro hzero
  have hunit := scaled_pos (2 - x.exponent)
  have hlow : 0 < x.interval.1 := by
    unfold interval
    dsimp only
    split <;> omega
  have hside : 0 < x.interval.1 * (scaled 1 1 (2 - x.exponent)).1 * c.toRatio.2 :=
    Nat.mul_pos (Nat.mul_pos hlow hunit.1) (toRatio_pos c)
  have hhere : c.toRatio.1 = 0 := by
    unfold Decimal.toRatio
    split <;> simp [hzero]
  unfold contains at h
  simp only [hhere] at h
  split at h
  all_goals
    simp only [Bool.and_eq_true, decide_eq_true_eq] at h
    omega

/-- The neighbour that is chosen rounds to the number. -/
theorem contains_of_neighbour? {n : Nat} {c : Decimal} (h : x.neighbour? n = some c) :
    x.contains c = true := by
  unfold neighbour? at h
  dsimp only at h
  split at h
  · next hlow hhigh =>
    split at h <;> simp_all
  all_goals simp_all

/-- Dropping zeros at the end leaves other digits. -/
theorem digits_trim_ne_zero {c : Decimal} (h : c.digits ≠ 0) (k : Nat) :
    (c.trim k).digits ≠ 0 := by
  induction k generalizing c with
  | zero => exact h
  | succ k ih =>
    unfold Decimal.trim
    split
    · next hten =>
      simp only [Bool.and_eq_true, bne_iff_ne, beq_iff_eq] at hten
      refine ih (c := ⟨c.digits / 10, c.exponent + 1⟩) ?_
      show c.digits / 10 ≠ 0
      omega
    · exact h

/-- The shortest decimal has digits other than zero, or is plain zero. -/
theorem exponent_shortest (h : x.shortest.digits = 0) : x.shortest.exponent = 0 := by
  have hfrom : ∀ fuel n, x.mantissa ≠ 0 →
      (x.shortestFrom fuel n).digits = 0 → (x.shortestFrom fuel n).exponent = 0 := by
    intro fuel
    induction fuel with
    | zero => exact fun _ _ _ => rfl
    | succ fuel ih =>
      intro n hx
      rw [shortestFrom]
      cases hfound : x.neighbour? n with
      | none => exact ih (n + 1) hx
      | some c =>
        intro hzero
        have hdigits := digits_ne_zero_of_contains hx (contains_of_neighbour? hfound)
        exact absurd hzero (digits_trim_ne_zero hdigits 20)
  unfold shortest at h ⊢
  split at h
  · next hx => rw [if_pos hx]
  · next hx =>
    rw [if_neg hx]
    exact hfrom 17 1 (by simpa [isZero] using hx) h

end Double

namespace Value

/-! ## Strings -/

/-- A control is escaped with four digits that stand for it. -/
theorem hexUnit?_control : ∀ n < 0x20,
    List.replicate (4 - (Nat.toDigits 16 n).length) '0' ++ Nat.toDigits 16 n =
        ['0', '0', Nat.digitChar (n / 16), Nat.digitChar (n % 16)] ∧
      Reader.hexUnit? '0' '0' (Nat.digitChar (n / 16)) (Nat.digitChar (n % 16)) = some n := by
  decide

/-- A character is spelled by itself or by an escape. -/
theorem Characters.escape {body cs rest : List Char} (h : Characters body cs rest) (c : Char) :
    Characters (c :: body) ((escape c).toList ++ cs) rest := by
  unfold Value.escape
  simp only [beq_iff_eq]
  split_ifs with hquote hslash hline hreturn htab hback hfeed hcontrol
  iterate 7
    · subst_vars
      exact .short rfl h
  · obtain ⟨hdigits, hunit⟩ := hexUnit?_control c.toNat hcontrol
    have hhalf : Reader.isHighHalf c.toNat = false ∧ Reader.isLowHalf c.toNat = false := by
      simp only [Reader.isHighHalf, Reader.isLowHalf]
      constructor <;> simp <;> omega
    have hspelled := Characters.unit hunit hhalf.1 hhalf.2 h
    rw [Char.ofNat_toNat] at hspelled
    simpa [hdigits] using hspelled
  · simpa using Characters.plain hquote hslash (Nat.le_of_not_lt hcontrol) h

/-- A string in quotes is a spelling of the string. -/
theorem characters_quoted (s : String) (rest : List Char) :
    ∃ cs, (quoted s).toList ++ rest = '"' :: cs ∧ Characters s.toList cs rest := by
  refine ⟨(String.join (s.toList.map Value.escape)).toList ++ '"' :: rest, by simp [quoted], ?_⟩
  rw [String.toList_join]
  induction s.toList with
  | nil => exact .close rest
  | cons c later ih => simpa using ih.escape c

/-! ## Numbers -/

section Digits

variable {digits : List Char}

theorem isDigits_zeros_append (k : Nat) (h : IsDigits digits) :
    IsDigits (List.replicate k '0' ++ digits) := by
  refine ⟨by simp [h.1], fun c hc => ?_⟩
  rcases List.mem_append.1 hc with hzero | hc
  · rw [List.eq_of_mem_replicate hzero]
    rfl
  · exact h.2 c hc

theorem isDigits_drop {k : Nat} (h : IsDigits digits) (hk : k < digits.length) :
    IsDigits (digits.drop k) :=
  ⟨by simpa using hk, fun c hc => h.2 c (List.mem_of_mem_drop hc)⟩

/-- The digits at the front of a whole number are a whole number. -/
theorem isWhole_take (k : Nat) (h : IsWhole digits) : IsWhole (digits.take (k + 1)) := by
  refine ⟨⟨by simp [h.1.1], fun c hc => h.1.2 c (List.mem_of_mem_take hc)⟩, fun hzero => ?_⟩
  rw [List.head?_take, if_neg (Nat.succ_ne_zero k)] at hzero
  rw [h.2 hzero]
  simp

/-- Zeros may follow the digits of a number other than zero. -/
theorem isWhole_append_zeros {n k : Nat} (h : n = 0 → k = 0) :
    IsWhole (Nat.toDigits 10 n ++ List.replicate k '0') := by
  by_cases hn : n = 0
  · rw [hn, h hn]
    exact isWhole_toDigits 0
  have hdigits := (isWhole_toDigits n).1
  refine ⟨⟨by simp, fun c hc => ?_⟩, fun hzero => ?_⟩
  · rcases List.mem_append.1 hc with hc | hc
    · exact hdigits.2 c hc
    · rw [List.eq_of_mem_replicate hc]
      rfl
  · obtain ⟨c, later, hcons⟩ := List.exists_cons_of_ne_nil hdigits.1
    have hhead := head?_toDigits_ne hn
    rw [hcons] at hzero hhead
    exact absurd hzero hhead

end Digits

/-- A decimal is written as digits with a point or an exponent after them. -/
theorem exists_numeral_write {d : Decimal} (hd : d.digits = 0 → d.exponent = 0) (negative : Bool) :
    ∃ x : Numeral, x.WellFormed ∧ x.negative = negative ∧ x.fraction ++ x.power ≠ [] ∧
      (Number.layout.write d).toList = x.unsignedText := by
  have hwhole := isWhole_toDigits d.digits
  unfold Number.Layout.write
  dsimp only
  generalize hfirst : d.exponent + (Nat.toDigits 10 d.digits).length - 1 = first
  split
  · split
    · -- All digits stand before the point.
      refine ⟨⟨negative, Nat.toDigits 10 d.digits ++ List.replicate d.exponent.toNat '0',
        ['.', '0'], []⟩, ⟨isWhole_append_zeros fun h => by simp [hd h], .some ?_, .none⟩, rfl,
        by simp, by simp [Number.zeros, Number.layout, Numeral.unsignedText]⟩
      exact ⟨by simp, by simp⟩
    · split
      · -- The point stands between digits.
        exact ⟨⟨negative, _, '.' :: (Nat.toDigits 10 d.digits).drop (first.toNat + 1), []⟩,
          ⟨isWhole_take first.toNat hwhole, .some (isDigits_drop hwhole.1 (by omega)), .none⟩, rfl,
          by simp, by simp [Numeral.unsignedText]⟩
      · -- Zeros stand after the point.
        refine ⟨⟨negative, ['0'], _, []⟩,
          ⟨isWhole_toDigits 0, .some (isDigits_zeros_append (-first - 1).toNat hwhole.1), .none⟩,
          rfl, by simp, by simp [Numeral.unsignedText, Number.zeros]⟩
  · -- One digit stands before the point, if there is one, and an exponent at the end.
    obtain ⟨fraction, hfraction, hpoint⟩ : ∃ fraction, IsFraction fraction ∧
        (if ((Nat.toDigits 10 d.digits).drop 1).isEmpty = true then ""
          else "." ++ String.ofList ((Nat.toDigits 10 d.digits).drop 1)).toList = fraction := by
      split
      · exact ⟨[], .none, rfl⟩
      · next hmore =>
        have hlength : 1 < (Nat.toDigits 10 d.digits).length := by
          by_contra hone
          exact hmore (by rw [List.drop_eq_nil_of_le (Nat.le_of_not_lt hone)]; rfl)
        exact ⟨_, .some (isDigits_drop hwhole.1 hlength), by simp⟩
    obtain ⟨sign, hsign, hmark⟩ : ∃ sign, (sign = '+' ∨ sign = '-') ∧
        (if first < 0 then Number.layout.negativeMark else Number.layout.positiveMark).toList =
          ['e', sign] := by
      split
      · exact ⟨'-', .inr rfl, rfl⟩
      · exact ⟨'+', .inl rfl, rfl⟩
    have hpower := IsPower.signed (.inl rfl) hsign (isWhole_toDigits first.natAbs).1
    refine ⟨⟨negative, _, fraction, _⟩, ⟨isWhole_take 0 hwhole, hfraction, hpower⟩, rfl, by simp,
      ?_⟩
    simp only [String.toList_append, hpoint, hmark]
    simp [Numeral.unsignedText]

/-- A number is written as a numeral that stands for it. -/
theorem spelling_number (n : Number) (rest : List Char) :
    Spelling (.number n) (n.text.toList ++ rest) rest := by
  cases n with
  | integer n =>
    rw [Number.text, ← Numeral.text_ofInt]
    exact .number rest (Numeral.wellFormed_ofInt n) (.integer n)
  | double x =>
    obtain ⟨numeral, hnumeral, hsign, hparts, hwrite⟩ :=
      exists_numeral_write x.exponent_shortest x.negative
    have htext : (Number.double x).text.toList = numeral.text := by
      rw [Number.text, Number.doubleText, String.toList_append, hwrite, Numeral.text, hsign]
      cases x.negative <;> rfl
    rw [htext]
    exact .number rest hnumeral (.double numeral x hparts)

/-! ## Values -/

theorem blank_space : Reader.isBlank ' ' = true := rfl

/-- The start of a line is blank. -/
theorem padding_indent (level : Nat) (rest : List Char) :
    Padding ((indent level).toList ++ rest) rest := by
  have hblanks : ∀ k, Padding (List.replicate k ' ' ++ rest) rest := by
    intro k
    induction k with
    | zero => exact .none rest
    | succ k ih => exact .blank blank_space ih
  have hline : Reader.isBlank '\n' = true := rfl
  simpa [indent] using Padding.blank hline (hblanks (2 * level))

/-- A name in quotes after the start of a line is a spelling of the name. -/
theorem name_quoted (level : Nat) (name : String) (rest : List Char) :
    Name name ((indent level).toList ++ ((quoted name).toList ++ ':' :: rest)) rest := by
  obtain ⟨cs, hquoted, hname⟩ := characters_quoted name (':' :: rest)
  rw [hquoted]
  exact .mk (padding_indent level _) hname (.none _)

/-- The text of a nonempty block. -/
theorem toList_block (opening closing : String) (level : Nat) {parts : List String}
    (h : parts ≠ []) : (block opening closing level parts).toList =
      opening.toList ++ ((indent (level + 1)).toList ++
        ((("," ++ indent (level + 1)).intercalate parts).toList ++
          ((indent level).toList ++ closing.toList))) := by
  have hsome : parts.isEmpty = false := by simpa using h
  simp [block, hsome]

mutual

/-- What is printed of a value is a spelling of it. -/
theorem spelling_prettyAt (level : Nat) (v : Value) (rest : List Char) :
    Spelling v ((prettyAt level v).toList ++ rest) rest :=
  match v with
  | .null => by simpa [prettyAt] using Spelling.null rest
  | .bool true => by simpa [prettyAt, boolText] using Spelling.yes rest
  | .bool false => by simpa [prettyAt, boolText] using Spelling.no rest
  | .number n => by
    rw [prettyAt]
    exact spelling_number n rest
  | .string s => by
    obtain ⟨cs, hquoted, hs⟩ := characters_quoted s rest
    rw [prettyAt, hquoted]
    exact .string hs
  | .array [] => by simpa [prettyAt, prettyItems, block] using Spelling.emptyArray (.none _)
  | .array (item :: later) => by
    have hitems := items_prettyItems (level + 1) level (item :: later) (by simp) rest
    rw [prettyAt, toList_block _ _ _ (by simp [prettyItems])]
    simpa using Spelling.array hitems
  | .object [] => by
    simpa [prettyAt, prettyMembers, block] using Spelling.emptyObject (.none _)
  | .object ((name, member) :: later) => by
    have hmembers :=
      members_prettyMembers (level + 1) level ((name, member) :: later) (by simp) rest
    rw [prettyAt, toList_block _ _ _ (by simp [prettyMembers])]
    simpa using Spelling.object hmembers

/-- So is what is printed of items, one a line. -/
theorem items_prettyItems (level outer : Nat) (items : List Value) (h : items ≠ [])
    (rest : List Char) :
    Items items ((indent level).toList ++
      ((("," ++ indent level).intercalate (prettyItems level items)).toList ++
        ((indent outer).toList ++ ']' :: rest))) rest :=
  match items with
  | [] => absurd rfl h
  | [item] => by
    have hitem := spelling_prettyAt level item ((indent outer).toList ++ ']' :: rest)
    refine .last (.mk (padding_indent level _) ?_ (padding_indent outer _))
    simpa [prettyItems] using hitem
  | item :: next :: later => by
    have hlater := items_prettyItems level outer (next :: later) (by simp) rest
    have hitem := fun text => spelling_prettyAt level item (',' :: text)
    refine .cons (.mk (padding_indent level _) ?_ (.none _)) hlater
    simpa [prettyItems, String.intercalate_cons_cons] using hitem _

/-- And of members. -/
theorem members_prettyMembers (level outer : Nat) (members : List (String × Value))
    (h : members ≠ []) (rest : List Char) :
    Members members ((indent level).toList ++
      ((("," ++ indent level).intercalate (prettyMembers level members)).toList ++
        ((indent outer).toList ++ '\x7d' :: rest))) rest :=
  match members with
  | [] => absurd rfl h
  | [(name, v)] => by
    have hname := fun text => name_quoted level name (' ' :: ((prettyAt level v).toList ++ text))
    have hv := spelling_prettyAt level v ((indent outer).toList ++ '\x7d' :: rest)
    refine .last ?_ (.mk (.blank blank_space (.none _)) hv (padding_indent outer _))
    simpa [prettyMembers] using hname _
  | (name, v) :: next :: later => by
    have hlater := members_prettyMembers level outer (next :: later) (by simp) rest
    have hname := fun text => name_quoted level name (' ' :: ((prettyAt level v).toList ++ text))
    have hv := fun text => spelling_prettyAt level v (',' :: text)
    refine .cons ?_ (.mk (.blank blank_space (.none _)) (hv _) (.none _)) hlater
    simpa [prettyMembers, String.intercalate_cons_cons] using hname _

end

/-- What is printed of a value spells it. -/
theorem isSpelledBy_pretty (v : Value) : v.IsSpelledBy v.pretty := by
  have h := spelling_prettyAt 0 v []
  rw [List.append_nil] at h
  exact .mk (.none _) h (.none _)

end Value

end EffectPrograms
