import EffectPrograms.Proofs.Tokens
import Mathlib.Data.List.DropRight

/-!
# Skipping values

A member of an unknown name is skipped, whatever its value is. Any spelling of any value is skipped
up to its end (`Padded.skipValue_eq`): the fuel bounds the depth of nesting and the number of parts,
of which there are less than characters.
-/

namespace EffectPrograms.Value

open Reader (skipBlanks isBlank)
open Settings.Reader (skipString skipValue skipItems skipMembers skipNumber)

/-! ## How spellings begin -/

theorem not_isBlank_of_number {c : Char} (h : c.isDigit = true ∨ c = '-') : isBlank c = false := by
  rw [Bool.eq_false_iff]
  intro hblank
  simp only [isBlank, Bool.or_eq_true, beq_iff_eq] at hblank
  rcases hblank with ((rfl | rfl) | rfl) | rfl <;> simp at h

/-- A number begins with a digit or a minus. -/
theorem Numeral.WellFormed.head_text {x : Numeral} (h : x.WellFormed) (rest : List Char) :
    ∃ c later, x.text ++ rest = c :: later ∧ (c.isDigit = true ∨ c = '-') := by
  obtain ⟨d, later, htext, hdigit⟩ := h.head
  rw [Numeral.text, htext]
  cases x.negative with
  | true => exact ⟨'-', d :: later ++ rest, rfl, .inr rfl⟩
  | false => exact ⟨d, later ++ rest, rfl, .inl hdigit⟩

/-- A spelling begins with no blank and no closing bracket. -/
theorem Spelling.front {v : Value} {cs rest : List Char} (h : Spelling v cs rest) :
    ∃ c later, cs = c :: later ∧ isBlank c = false ∧ c ≠ ']' := by
  cases h with
  | number _ hnumeral =>
    obtain ⟨c, later, htext, hc⟩ := hnumeral.head_text rest
    refine ⟨c, later, htext, not_isBlank_of_number hc, ?_⟩
    rintro rfl
    simp at hc
  | _ => exact ⟨_, _, rfl, rfl, by decide⟩

/-- Blanks are skipped up to a spelling. -/
theorem Spelling.skipBlanks_eq {v : Value} {cs front rest : List Char} (h : Spelling v front rest)
    (hcs : Padding cs front) : skipBlanks cs = front := by
  obtain ⟨c, later, rfl, hblank, -⟩ := h.front
  exact hcs.skipBlanks_cons hblank

/-- Items begin with no closing bracket. -/
theorem Items.front {items : List Value} {cs rest : List Char} (h : Items items cs rest) :
    ∃ c later, skipBlanks cs = c :: later ∧ c ≠ ']' := by
  have hpadded : ∀ {v : Value} {cs rest : List Char}, Padded v cs rest →
      ∃ c later, skipBlanks cs = c :: later ∧ c ≠ ']' := by
    rintro v cs rest ⟨hcs, hv, -⟩
    obtain ⟨c, later, hfront, -, hc⟩ := hv.front
    exact ⟨c, later, (hv.skipBlanks_eq hcs).trans hfront, hc⟩
  cases h with
  | last hv | cons hv _ => exact hpadded hv

/-- A name is read or skipped between its quotes, and followed by a colon. -/
theorem Name.parts {name : String} {cs rest : List Char} (h : Name name cs rest) :
    ∃ body after, skipBlanks cs = '"' :: body ∧ Reader.string body = some (name, after) ∧
      skipString body = some after ∧ skipBlanks after = ':' :: rest := by
  obtain ⟨hcs, hbody, hafter⟩ := h
  refine ⟨_, _, hcs.skipBlanks_cons rfl, ?_, hbody.skipString_eq, hafter.skipBlanks_cons rfl⟩
  simp [Reader.string, hbody.stringBody_eq]

/-- Members begin with a name. -/
theorem Members.front {members : List (String × Value)} {cs rest : List Char}
    (h : Members members cs rest) : ∃ later, skipBlanks cs = '"' :: later := by
  cases h with
  | last hname _ | cons hname _ _ =>
    obtain ⟨body, -, hcs, -⟩ := hname.parts
    exact ⟨body, hcs⟩

/-! ## Skipping -/

/-- What begins like a number is skipped as one. -/
theorem skipValue_of_number {c : Char} {cs later : List Char}
    (h : skipBlanks cs = c :: later) (hc : c.isDigit = true ∨ c = '-') (fuel : Nat) :
    skipValue (fuel + 1) cs = skipNumber (c :: later) := by
  rw [skipValue, h]
  split
  all_goals simp_all

/-- Blanks in front do not matter. -/
theorem skipBlanks_idem (cs : List Char) : skipBlanks (skipBlanks cs) = skipBlanks cs :=
  List.dropWhile_idempotent _ cs

theorem skipItems_skipBlanks (fuel : Nat) (cs : List Char) :
    skipItems fuel (skipBlanks cs) = skipItems fuel cs := by
  match fuel with
  | 0 => rfl
  | 1 => rfl
  | fuel + 2 => rw [skipItems, skipItems, skipValue, skipValue, skipBlanks_idem]

theorem skipMembers_skipBlanks (fuel : Nat) (cs : List Char) :
    skipMembers fuel (skipBlanks cs) = skipMembers fuel cs := by
  cases fuel with
  | zero => rfl
  | succ fuel => rw [skipMembers, skipMembers, skipBlanks_idem]

mutual

/-- A value is skipped, after any blanks. -/
theorem Spelling.skipValue_eq {v : Value} {cs rest before : List Char} (h : Spelling v cs rest)
    (hends : Ends rest) (fuel : Nat) (hfuel : cs.length < fuel + 1 + rest.length)
    (hbefore : skipBlanks before = cs) : skipValue (fuel + 1) before = some rest :=
  match h with
  | .null _ | .yes _ | .no _ => by
    rw [skipValue, hbefore]
    rfl
  | .number _ hnumeral _ => by
    obtain ⟨c, later, htext, hc⟩ := hnumeral.head_text rest
    rw [skipValue_of_number (hbefore.trans htext) hc, ← htext]
    exact hnumeral.skipNumber_eq hends
  | .string hbody => by
    rw [skipValue, hbefore]
    exact hbody.skipString_eq
  | .emptyArray hcs => by
    have hclosing := hcs.skipBlanks_cons rfl
    rw [skipValue, hbefore]
    simp only [hclosing]
  | .emptyObject hcs => by
    have hclosing := hcs.skipBlanks_cons rfl
    rw [skipValue, hbefore]
    simp only [hclosing]
  | .array hitems => by
    have hskip := hitems.skipItems_eq fuel
      (by simp only [List.length_cons] at hfuel; omega)
    obtain ⟨c, later, hfront, hc⟩ := hitems.front
    rw [← skipItems_skipBlanks, hfront] at hskip
    rw [skipValue, hbefore]
    simpa [hfront, hc] using hskip
  | .object hmembers => by
    have hskip := hmembers.skipMembers_eq fuel
      (by simp only [List.length_cons] at hfuel; omega)
    obtain ⟨later, hfront⟩ := hmembers.front
    rw [← skipMembers_skipBlanks, hfront] at hskip
    rw [skipValue, hbefore]
    simpa [hfront] using hskip

/-- So is one with blanks around it, up to those after it. -/
theorem Padded.skipValue_eq {v : Value} {cs rest : List Char} (h : Padded v cs rest)
    (hends : Ends rest) (fuel : Nat) (hfuel : cs.length < fuel + rest.length) :
    ∃ after, skipValue fuel cs = some after ∧ Padding after rest :=
  match h with
  | @Padded.mk _ _ _ after _ hcs hv hafter => by
    have hle := hcs.length_le
    have hlt := hv.length_lt
    have hle' := hafter.length_le
    obtain ⟨fuel, rfl⟩ : ∃ n, fuel = n + 1 := ⟨fuel - 1, by omega⟩
    exact ⟨after, hv.skipValue_eq (hends.of_padding hafter) fuel (by omega) (hv.skipBlanks_eq hcs),
      hafter⟩

/-- Items are skipped. -/
theorem Items.skipItems_eq {items : List Value} {cs rest : List Char} (h : Items items cs rest)
    (fuel : Nat) (hfuel : cs.length < fuel + rest.length) :
    skipItems fuel cs = some rest :=
  match h with
  | .last hv => by
    have hlt := hv.length_lt
    simp only [List.length_cons] at hlt
    obtain ⟨fuel, rfl⟩ : ∃ n, fuel = n + 1 := ⟨fuel - 1, by omega⟩
    obtain ⟨after, hskip, hafter⟩ := hv.skipValue_eq (by simp [Ends]) fuel
      (by simp only [List.length_cons]; omega)
    have hclosing := hafter.skipBlanks_cons rfl
    simp [skipItems, hskip, hclosing]
  | .cons hv hrest => by
    have hlt := hv.length_lt
    have hlt' := hrest.length_lt
    simp only [List.length_cons] at hlt
    obtain ⟨fuel, rfl⟩ : ∃ n, fuel = n + 1 := ⟨fuel - 1, by omega⟩
    obtain ⟨after, hskip, hafter⟩ := hv.skipValue_eq (by simp [Ends]) fuel
      (by simp only [List.length_cons]; omega)
    have hcomma := hafter.skipBlanks_cons rfl
    have hlater := hrest.skipItems_eq fuel (by omega)
    simp [skipItems, hskip, hcomma, hlater]

/-- Members are skipped. -/
theorem Members.skipMembers_eq {members : List (String × Value)} {cs rest : List Char}
    (h : Members members cs rest) (fuel : Nat) (hfuel : cs.length < fuel + rest.length) :
    skipMembers fuel cs = some rest :=
  match h with
  | .last hname hv => by
    have hlt := hname.length_lt
    have hlt' := hv.length_lt
    simp only [List.length_cons] at hlt'
    obtain ⟨fuel, rfl⟩ : ∃ n, fuel = n + 1 := ⟨fuel - 1, by omega⟩
    obtain ⟨body, after, hquote, -, hbody, hcolon⟩ := hname.parts
    obtain ⟨after', hskip, hafter⟩ := hv.skipValue_eq (by simp [Ends]) fuel
      (by simp only [List.length_cons]; omega)
    have hclosing := hafter.skipBlanks_cons rfl
    simp [skipMembers, hquote, hbody, hcolon, hskip, hclosing]
  | .cons hname hv hrest => by
    have hlt := hname.length_lt
    have hlt' := hv.length_lt
    have hlt'' := hrest.length_lt
    simp only [List.length_cons] at hlt'
    obtain ⟨fuel, rfl⟩ : ∃ n, fuel = n + 1 := ⟨fuel - 1, by omega⟩
    obtain ⟨body, after, hquote, -, hbody, hcolon⟩ := hname.parts
    obtain ⟨after', hskip, hafter⟩ := hv.skipValue_eq (by simp [Ends]) fuel
      (by simp only [List.length_cons]; omega)
    have hcomma := hafter.skipBlanks_cons rfl
    have hlater := hrest.skipMembers_eq fuel (by omega)
    simp [skipMembers, hquote, hbody, hcolon, hskip, hcomma, hlater]

end

end EffectPrograms.Value
