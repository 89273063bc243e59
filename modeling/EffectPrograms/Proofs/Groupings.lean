import EffectPrograms.Proofs.FanOut
import EffectPrograms.Proofs.Logged

/-!
# Branches that are grouped

A branch of a fan-out may be a fan-out itself. Its branches are interpreted in the same order as if
they stood in its place, on the same passes (`Interpreter.Grouped.interpreted`); only that their
answers are gathered in a sequence, which is one answer among the others (`Answer.Grouped`).

Such a sequence comes to what its answers come to in turn, so that the grouped answers come to what
all answers do that they are made of (`Answer.Grouped.leaveRest`, `Answer.Grouped.turns_within`), as
long as no request among these has the rest of the composite replaced that it stands in. The one
difference is that the value of the last answer of a group is read back once more.
-/

namespace EffectPrograms

variable {σ : Type}

open Evaluation FanOut Interpreter

namespace Registry

/-! ## Each answer at its turn -/

section

variable (registry : Registry σ)

/-- Resolves the answers in turn, to the value of the last one, or to the given value if there is
none. -/
def turns (fuel : Nat) (v : Value) (answers : List (Answer σ)) : Evaluation σ Value :=
  answers.foldlM (fun _ answer => registry.resolveAnswer fuel answer) v

/-- It holds of each answer in the surroundings in which its turn comes. -/
def EachInTurn (P : Answer σ → Surroundings σ → Prop) : List (Answer σ) → Surroundings σ → Prop
  | [], _ => True
  | answer :: later, surroundings =>
    P answer surroundings ∧ ∀ fuel acts v next,
      (registry.resolveAnswer fuel answer).course surroundings = ⟨acts, .ok v, next⟩ →
        EachInTurn P later next

/-- The first answer comes before the later ones. -/
theorem turns_cons (fuel : Nat) (v : Value) (answer : Answer σ) (later : List (Answer σ)) :
    registry.turns fuel v (answer :: later) =
      registry.resolveAnswer fuel answer >>= fun v => registry.turns fuel v later :=
  List.foldlM_cons

/-- The answers of two lists come one after the other. -/
theorem turns_append (fuel : Nat) (v : Value) (earlier later : List (Answer σ)) :
    registry.turns fuel v (earlier ++ later) =
      registry.turns fuel v earlier >>= fun v => registry.turns fuel v later :=
  List.foldlM_append

/-- With more fuel the answers are not cut short so soon. -/
theorem turns_mono (v : Value) (answers : List (Answer σ)) :
    Monotone fun fuel => registry.turns fuel v answers := by
  intro fuel more hle
  induction answers generalizing v with
  | nil => exact le_rfl
  | cons answer later ih =>
    simp only [turns_cons]
    exact bind_le_bind (registry.resolveAnswer_mono hle answer) fun v => ih v

/-- If there is an answer, the given value does not matter. -/
theorem turns_of_ne_nil {answers : List (Answer σ)} (h : answers ≠ []) (fuel : Nat)
    (v v' : Value) : registry.turns fuel v answers = registry.turns fuel v' answers := by
  cases answers with
  | nil => exact absurd rfl h
  | cons answer later => rfl

/-- Only the value depends on the given one. -/
theorem exists_turns {fuel : Nat} {v : Value} {answers : List (Answer σ)}
    {surroundings next : Surroundings σ} {acts : List (Act σ)} {w : Value}
    (h : (registry.turns fuel v answers).course surroundings = ⟨acts, .ok w, next⟩) (v' : Value) :
    ∃ w', (registry.turns fuel v' answers).course surroundings = ⟨acts, .ok w', next⟩ := by
  cases answers with
  | nil =>
    obtain ⟨rfl, -, rfl⟩ := Course.mk.inj h
    exact ⟨v', rfl⟩
  | cons answer later => exact ⟨w, h⟩

/-- Up to what the fan-out reads back, its answers are resolved in turn. -/
theorem logged_inTurn (fuel : Nat) (answers : List (Answer σ)) :
    (registry.inTurn fuel answers).logged = (registry.turns fuel .null answers).logged := by
  induction answers with
  | nil => rfl
  | cons answer later ih =>
    rw [turns_cons, logged_bind]
    cases later with
    | nil =>
      rw [inTurn, logged_bind]
      refine bind_congr fun v => ?_
      by_cases hstep : (earlierStep? answer).isSome = true
      · rw [if_pos hstep, logged_bind, logged_note_compute]
        rfl
      · rw [if_neg hstep]
        rfl
    | cons next later =>
      rw [inTurn, logged_bind]
      refine bind_congr fun v => ?_
      exact ih.trans rfl

end

variable {registry : Registry σ} {P : Answer σ → Surroundings σ → Prop}
  {surroundings : Surroundings σ} {answers : List (Answer σ)}

/-- The requests among the answers leave the rest alone if each does at its turn. -/
theorem leaveRest_iff : registry.LeaveRest answers surroundings ↔
    registry.EachInTurn registry.LeavesRest answers surroundings := by
  induction answers generalizing surroundings with
  | nil => exact Iff.rfl
  | cons answer later ih => simp only [LeaveRest, EachInTurn, LeavesRest, ih]

/-- It holds of all answers of two lists if it does of the first ones and, after these, of the
second ones. -/
theorem eachInTurn_append {earlier later : List (Answer σ)} :
    registry.EachInTurn P (earlier ++ later) surroundings ↔
      registry.EachInTurn P earlier surroundings ∧ ∀ fuel v acts w next,
        (registry.turns fuel v earlier).course surroundings = ⟨acts, .ok w, next⟩ →
          registry.EachInTurn P later next := by
  induction earlier generalizing surroundings with
  | nil =>
    constructor
    · intro h
      refine ⟨trivial, fun _ _ _ _ next hturns => ?_⟩
      obtain ⟨-, -, rfl⟩ := Course.mk.inj hturns
      exact h
    · exact fun h => h.2 0 .null [] .null surroundings rfl
  | cons answer earlier ih =>
    constructor
    · rintro ⟨hanswer, hearlier⟩
      refine ⟨⟨hanswer, fun fuel acts v next h => (ih.1 (hearlier fuel acts v next h)).1⟩, ?_⟩
      intro fuel v acts w next hturns
      rw [turns_cons] at hturns
      obtain ⟨first, v', between, second, hfirst, hsecond⟩ := bind_eq_ok hturns
      exact (ih.1 (hearlier fuel first v' between hfirst)).2 fuel v' second w next hsecond
    · rintro ⟨⟨hanswer, hearlier⟩, hlater⟩
      refine ⟨hanswer, fun fuel acts v between h => ih.2 ⟨hearlier fuel acts v between h, ?_⟩⟩
      intro fuel' v' acts' w next hturns
      -- The first answer and the others are resolved with the greater of both fuels.
      have hfirst := course_of_le
        (registry.resolveAnswer_mono (le_max_left fuel fuel') answer) h
      have hmore := course_of_le (registry.turns_mono v' earlier (le_max_right fuel fuel')) hturns
      obtain ⟨w', hsecond⟩ := registry.exists_turns hmore v
      refine hlater (max fuel fuel') .null (acts ++ acts') w' next ?_
      rw [turns_cons, bind_of_ok hfirst, hsecond]
      rfl

/-- The sequence that a fan-out makes of answers comes to nothing but what they come to in turn,
each with less fuel than there is for the sequence. -/
theorem sequence_le_turns {fuel more : Nat} (hle : fuel ≤ more + 1)
    (hleave : registry.LeaveRest answers surroundings) :
    (registry.resolveAnswer fuel (.sequence (combine "last" answers))).logged.course
        surroundings ≤ (registry.turns more .null answers).logged.course surroundings := by
  rw [← logged_inTurn]
  exact Course.logged_le_logged (combine_le_inTurn hle answers hleave)

/-- With enough fuel it does come to that. -/
theorem turns_within_sequence (fuel : Nat) (hleave : registry.LeaveRest answers surroundings) :
    (registry.turns fuel .null answers).Within
      (fun more => registry.resolveAnswer more (.sequence (combine "last" answers)))
      surroundings := by
  refine ⟨fuel + answers.length + 1, ?_⟩
  rw [← logged_inTurn]
  exact Course.logged_le_logged (inTurn_le_combine fuel answers hleave)

end Registry

/-! ## Groups of answers -/

/-- The second list has sequences in place of some parts of the first one, none of them empty, each
of which a fan-out makes of the answers that it stands for, which may be grouped as well. -/
inductive Answer.Grouped : List (Answer σ) → List (Answer σ) → Prop where
  | nil : Answer.Grouped [] []
  | single (answer : Answer σ) {later later' : List (Answer σ)} :
      Answer.Grouped later later' → Answer.Grouped (answer :: later) (answer :: later')
  | group {inner inner' later later' : List (Answer σ)} : inner ≠ [] →
      Answer.Grouped inner inner' → Answer.Grouped later later' →
        Answer.Grouped (inner ++ later) (.sequence (combine "last" inner') :: later')

namespace Answer.Grouped

variable {registry : Registry σ} {answers grouped : List (Answer σ)}

/-- If the requests among the answers leave the rest alone, those that are not in groups do, and up
to what the groups read back the answers come to nothing else than without groups. -/
theorem leaveRest (h : Grouped answers grouped) {surroundings : Surroundings σ}
    (hleave : registry.LeaveRest answers surroundings) :
    registry.LeaveRest grouped surroundings ∧ ∀ fuel v,
      (registry.turns fuel v grouped).logged.course surroundings ≤
        (registry.turns fuel v answers).logged.course surroundings := by
  induction h generalizing surroundings with
  | nil => exact ⟨trivial, fun _ _ => le_rfl⟩
  | single answer _ ih =>
    obtain ⟨hanswer, hlater⟩ := hleave
    refine ⟨⟨hanswer, fun fuel acts v next hturn => (ih (hlater fuel acts v next hturn)).1⟩,
      fun fuel v => ?_⟩
    exact logged_bind_le le_rfl fun acts w next hturn =>
      (ih (hlater fuel acts w next hturn)).2 fuel w
  | @group inner inner' later later' hne _ _ ihinner ihlater =>
    obtain ⟨hfirst, hafter⟩ := Registry.eachInTurn_append.1 (Registry.leaveRest_iff.1 hleave)
    obtain ⟨hinner, hle⟩ := ihinner (Registry.leaveRest_iff.2 hfirst)
    -- The sequence of the group comes to no more than its answers do in turn.
    have hgroup : ∀ fuel v,
        (registry.resolveAnswer fuel (.sequence (combine "last" inner'))).logged.course
          surroundings ≤ (registry.turns fuel v inner).logged.course surroundings := by
      intro fuel v
      rw [registry.turns_of_ne_nil hne fuel v .null]
      exact (Registry.sequence_le_turns (Nat.le_succ fuel) hinner).trans (hle fuel .null)
    have hlater : ∀ fuel acts w next,
        (registry.resolveAnswer fuel (.sequence (combine "last" inner'))).course surroundings =
          ⟨acts, .ok w, next⟩ → registry.LeaveRest later next := by
      intro fuel acts w next hturn
      obtain ⟨acts', hturns⟩ := exists_course_of_logged_le (hgroup fuel .null) hturn
      exact Registry.leaveRest_iff.2 (hafter fuel .null acts' w next hturns)
    refine ⟨⟨fun r hr => by simp at hr, fun fuel acts w next hturn =>
      (ihlater (hlater fuel acts w next hturn)).1⟩, fun fuel v => ?_⟩
    rw [registry.turns_cons, registry.turns_append]
    exact logged_bind_le (hgroup fuel v) fun acts w next hturn =>
      (ihlater (hlater fuel acts w next hturn)).2 fuel w

/-- With enough fuel the answers that are grouped come to all that they come to without groups. -/
theorem turns_within (h : Grouped answers grouped) {surroundings : Surroundings σ}
    (hleave : registry.LeaveRest answers surroundings) (fuel : Nat) (v : Value) :
    (registry.turns fuel v answers).Within (fun more => registry.turns more v grouped)
      surroundings := by
  induction h generalizing surroundings v with
  | nil => exact .refl _ surroundings
  | single answer _ ih =>
    obtain ⟨-, hlater⟩ := hleave
    simp only [registry.turns_cons]
    refine Within.bind (.of_le fuel le_rfl)
      (fun _ _ hle => registry.resolveAnswer_mono hle answer)
      (fun w => registry.turns_mono w _) fun _ acts _ w next hturn _ => ?_
    exact ih (hlater fuel acts w next hturn) w
  | @group inner inner' later later' hne hgrouped _ ihinner ihlater =>
    obtain ⟨hfirst, hafter⟩ := Registry.eachInTurn_append.1 (Registry.leaveRest_iff.1 hleave)
    have hinner := Registry.leaveRest_iff.2 hfirst
    simp only [registry.turns_cons, registry.turns_append]
    refine Within.bind ?_ (fun _ _ hle => registry.resolveAnswer_mono hle _)
      (fun w => registry.turns_mono w _) fun _ acts _ w next hturn _ => ?_
    · rw [registry.turns_of_ne_nil hne fuel v .null]
      refine (ihinner hinner .null).trans fun more => ?_
      exact Registry.turns_within_sequence more (hgrouped.leaveRest hinner).1
    · exact ihlater (Registry.leaveRest_iff.2 (hafter fuel v acts w next hturn)) w

/-- What holds of each grouped answer at its turn, and of the answers of a group at theirs if it
does of their sequence, holds of all answers at their turn. -/
theorem eachInTurn {P : Answer σ → Surroundings σ → Prop} (h : Grouped answers grouped)
    {surroundings : Surroundings σ} (hleave : registry.LeaveRest answers surroundings)
    (hP : ∀ inner surroundings, P (.sequence (combine "last" inner)) surroundings →
      registry.LeaveRest inner surroundings → registry.EachInTurn P inner surroundings)
    (hgrouped : registry.EachInTurn P grouped surroundings) :
    registry.EachInTurn P answers surroundings := by
  induction h generalizing surroundings with
  | nil => trivial
  | single answer _ ih =>
    obtain ⟨-, hlater⟩ := hleave
    obtain ⟨hanswer, hothers⟩ := hgrouped
    exact ⟨hanswer, fun fuel acts v next hturn =>
      ih (hlater fuel acts v next hturn) (hothers fuel acts v next hturn)⟩
  | @group inner inner' later later' hne hinner _ ihinner ihlater =>
    obtain ⟨hfirst, hafter⟩ := Registry.eachInTurn_append.1 (Registry.leaveRest_iff.1 hleave)
    have hleaveInner := Registry.leaveRest_iff.2 hfirst
    obtain ⟨hgroup, hothers⟩ := hgrouped
    refine Registry.eachInTurn_append.2 ⟨?_, fun fuel v acts w next hturns => ?_⟩
    · exact ihinner hleaveInner (hP inner' surroundings hgroup (hinner.leaveRest hleaveInner).1)
    · -- With enough fuel the sequence of the group has a result as well.
      rw [registry.turns_of_ne_nil hne fuel v .null] at hturns
      have hwithin := (hinner.turns_within hleaveInner fuel .null).trans fun more =>
        Registry.turns_within_sequence more (hinner.leaveRest hleaveInner).1
      obtain ⟨more, acts', hturn⟩ := hwithin.exists_course hturns
      exact ihlater (Registry.leaveRest_iff.2 (hafter fuel .null acts w next hturns))
        (hothers more acts' w next hturn)

end Answer.Grouped

/-! ## Groups of branches -/

namespace Interpreter

/-- The second list has fan-outs of the algebra in place of some parts of the first one, none of
them empty, each over the branches that it stands for, which may be grouped as well. -/
inductive Grouped (algebra : String) : List (Interpreter σ) → List (Interpreter σ) → Prop where
  | nil : Grouped algebra [] []
  | single (branch : Interpreter σ) {later later' : List (Interpreter σ)} :
      Grouped algebra later later' → Grouped algebra (branch :: later) (branch :: later')
  | group {inner inner' later later' : List (Interpreter σ)} : inner ≠ [] →
      Grouped algebra inner inner' → Grouped algebra later later' →
        Grouped algebra (inner ++ later) (.fanOut algebra "last" inner' :: later')

variable {algebra : String} {r : Request} {earlier later : List (Interpreter σ)}
  {pass next last : Pass σ} {f : Fault}

/-- Branches are a grouping of themselves. -/
theorem Grouped.refl (branches : List (Interpreter σ)) : Grouped algebra branches branches := by
  induction branches with
  | nil => exact .nil
  | cons branch later ih => exact .single branch ih

/-- Branches before those that are grouped may stay as they are. -/
theorem Grouped.append_left {grouped : List (Interpreter σ)} (h : Grouped algebra later grouped)
    (earlier : List (Interpreter σ)) : Grouped algebra (earlier ++ later) (earlier ++ grouped) := by
  induction earlier with
  | nil => exact h
  | cons branch earlier ih => exact .single branch ih

/-- Later interpreters answer after earlier ones. -/
theorem AnswerInTurn.append {answers answers' : List (Answer σ)}
    (h : AnswerInTurn r earlier pass answers next)
    (hlater : AnswerInTurn r later next answers' last) :
    AnswerInTurn r (earlier ++ later) pass (answers ++ answers') last := by
  induction h with
  | nil pass => exact hlater
  | cons hanswer _ ih => exact .cons hanswer (ih hlater)

/-- If one of the earlier interpreters fails, the later ones are not asked. -/
theorem FailInTurn.append_right (h : FailInTurn r earlier pass f last)
    (later : List (Interpreter σ)) : FailInTurn r (earlier ++ later) pass f last := by
  obtain ⟨before, failing, after, answers, between, rfl, hbefore, hfail⟩ := h
  exact ⟨before, failing, after ++ later, answers, between, by simp, hbefore, hfail⟩

/-- A later interpreter fails after the earlier ones have answered. -/
theorem AnswerInTurn.append_fail {answers : List (Answer σ)}
    (h : AnswerInTurn r earlier pass answers next) (hlater : FailInTurn r later next f last) :
    FailInTurn r (earlier ++ later) pass f last := by
  obtain ⟨before, failing, after, answers', between, rfl, hbefore, hfail⟩ := hlater
  exact ⟨earlier ++ before, failing, after, answers ++ answers', between, by simp,
    h.append hbefore, hfail⟩

/-- An interpreter answers by itself. -/
theorem answerInTurn_singleton {branch : Interpreter σ} {answer : Answer σ}
    (h : branch.interpret r pass = (.ok answer, last)) :
    AnswerInTurn r [branch] pass [answer] last :=
  .cons h (.nil last)

/-- An interpreter fails by itself. -/
theorem failInTurn_singleton {branch : Interpreter σ}
    (h : branch.interpret r pass = (.error f, last)) : FailInTurn r [branch] pass f last :=
  ⟨[], branch, [], [], pass, rfl, .nil pass, h⟩

/-- Branches answer in turn just if they do when they are grouped, with the same pass at the end,
and their answers are grouped in the same way; or one of them fails in both cases. -/
theorem Grouped.interpreted {branches grouped : List (Interpreter σ)}
    (h : Grouped algebra branches grouped) (r : Request) (pass : Pass σ) :
    (∃ answers answers' last, AnswerInTurn r branches pass answers last ∧
        AnswerInTurn r grouped pass answers' last ∧ Answer.Grouped answers answers') ∨
      ∃ f last, FailInTurn r branches pass f last ∧ FailInTurn r grouped pass f last := by
  induction h generalizing pass with
  | nil => exact .inl ⟨[], [], pass, .nil pass, .nil pass, .nil⟩
  | single branch _ ih =>
    rcases hanswer : branch.interpret r pass with ⟨f | answer, next⟩
    · have hfail := failInTurn_singleton hanswer
      exact .inr ⟨f, next, hfail.append_right _, hfail.append_right _⟩
    · have hfirst := answerInTurn_singleton hanswer
      rcases ih next with
        ⟨answers, answers', last, hlater, hlater', hgrouped⟩ | ⟨f, last, hlater, hlater'⟩
      · exact .inl ⟨_, _, last, hfirst.append hlater, hfirst.append hlater',
          .single answer hgrouped⟩
      · exact .inr ⟨f, last, hfirst.append_fail hlater, hfirst.append_fail hlater'⟩
  | @group inner inner' later later' hne _ _ ihinner ihlater =>
    rcases ihinner pass with
      ⟨answers, answers', next, hinner, hinner', hgroup⟩ | ⟨f, next, hinner, hinner'⟩
    · have hgathered : (fanOut algebra "last" inner').interpret r pass =
          (.ok (.sequence (combine "last" answers')), next) := hinner'.interpret_fanOut
      have hfirst := answerInTurn_singleton hgathered
      have hanswered : answers ≠ [] := by
        rintro rfl
        cases hinner
        exact hne rfl
      rcases ihlater next with
        ⟨others, others', last, hlater, hlater', hgrouped⟩ | ⟨f, last, hlater, hlater'⟩
      · exact .inl ⟨_, _, last, hinner.append hlater, hfirst.append hlater',
          .group hanswered hgroup hgrouped⟩
      · exact .inr ⟨f, last, hinner.append_fail hlater, hfirst.append_fail hlater'⟩
    · have hgathered : (fanOut algebra "last" inner').interpret r pass = (.error f, next) :=
        hinner'.interpret_fanOut
      have hfail := failInTurn_singleton hgathered
      exact .inr ⟨f, next, hinner.append_right later, hfail.append_right later'⟩

variable {branches grouped : List (Interpreter σ)}

/-- If the branches answer in turn, they do when they are grouped. -/
theorem Grouped.answerInTurn (h : Grouped algebra branches grouped) {answers : List (Answer σ)}
    (hanswers : AnswerInTurn r branches pass answers last) :
    ∃ given, AnswerInTurn r grouped pass given last ∧ Answer.Grouped answers given := by
  rcases h.interpreted r pass with
    ⟨answers', given, last', hanswers', hgiven, hgroup⟩ | ⟨f, last', hfail, -⟩
  · obtain ⟨hsame, rfl⟩ := Prod.mk.inj (hanswers'.interpretEach.symm.trans hanswers.interpretEach)
    obtain rfl := Except.ok.inj hsame
    exact ⟨given, hgiven, hgroup⟩
  · cases hfail.interpretEach.symm.trans hanswers.interpretEach

/-- If one of them fails, it fails when they are grouped. -/
theorem Grouped.failInTurn (h : Grouped algebra branches grouped)
    (hfail : FailInTurn r branches pass f last) : FailInTurn r grouped pass f last := by
  rcases h.interpreted r pass with
    ⟨answers, given, last', hanswers, -, -⟩ | ⟨f', last', hfail', hfail''⟩
  · cases hanswers.interpretEach.symm.trans hfail.interpretEach
  · obtain ⟨hsame, rfl⟩ := Prod.mk.inj (hfail'.interpretEach.symm.trans hfail.interpretEach)
    obtain rfl := Except.error.inj hsame
    exact hfail''

end Interpreter

end EffectPrograms
