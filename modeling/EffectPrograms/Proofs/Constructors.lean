import EffectPrograms.Algebra
import EffectPrograms.Proofs.Mentions

/-!
# What constructors make of values

A constructor takes a list of values and makes a request with named arguments of them. Which
constructor is meant is decided by the first declaration of the operation
(`Algebra.DeclaresFirst`), and whether it takes the values by the number of declared parameters.
What becomes of the values then depends on the names of the parameters: the arguments gather the
pairs of a parameter and its value. As long as the parameters are distinct, each value is the
argument of its own parameter; of two values for one name only the later is left.
-/

namespace EffectPrograms.Algebra

variable {a : Algebra} {operation : String} {signature : Signature} {values : List Value}

/-- The first declaration of the operation has this signature. -/
def DeclaresFirst (a : Algebra) (operation : String) (signature : Signature) : Prop :=
  ∃ earlier later, a.operations = earlier ++ (operation, signature) :: later ∧
    operation ∉ earlier.map Prod.fst

/-- The signature that is found is that of the first declaration. -/
theorem signature?_eq_some_iff :
    a.signature? operation = some signature ↔ a.DeclaresFirst operation signature := by
  rw [signature?, List.lookup_eq_some_iff, DeclaresFirst]
  refine exists_congr fun earlier => exists_congr fun later => and_congr_right fun _ => ?_
  simp only [bne_iff_ne, ne_eq, List.mem_map, not_exists, not_and]
  exact forall_congr' fun declaration => imp_congr_right fun _ => not_congr eq_comm

/-- None is found just if the operation is not declared. -/
theorem signature?_eq_none_iff : a.signature? operation = none ↔ operation ∉ a.operationNames := by
  have hcontains := Entries.contains_iff a.operations operation
  rw [operationNames, ← Entries.names, ← hcontains, Entries.contains, Option.not_isSome_iff_eq_none]
  rfl

/-- Nothing is made for an operation that is not declared. -/
theorem call_of_undeclared (h : operation ∉ a.operationNames) (values : List Value) :
    a.call operation values = .error (.unknownOperation a.name operation) := by
  rw [call, constructorOf, signature?_eq_none_iff.2 h]
  rfl

/-- For a declared operation the first constructor is called. -/
theorem call_of_declaresFirst (h : a.DeclaresFirst operation signature) (values : List Value) :
    a.call operation values = Constructor.call ⟨a.name, operation, signature⟩ values := by
  rw [call, constructorOf, signature?_eq_some_iff.2 h]
  rfl

/-- It refuses any other number of values than that of its parameters. -/
theorem call_of_wrong_arity (h : a.DeclaresFirst operation signature)
    (hlength : values.length ≠ signature.params.length) :
    a.call operation values = .error
      (.wrongArity a.name operation signature.params.length values.length) := by
  rw [call_of_declaresFirst h]
  exact if_neg hlength

/-- From as many values as there are parameters it makes a request. -/
theorem call_of_arity (h : a.DeclaresFirst operation signature)
    (hlength : values.length = signature.params.length) :
    a.call operation values =
      .ok ⟨a.name, operation, Entries.ofPairs (signature.params.zip values)⟩ := by
  rw [call_of_declaresFirst h]
  exact if_pos hlength

/-- Arguments that gather the pairs of parameters and values have the distinct parameters as names,
and one entry for each parameter just if all are distinct. Then the values are those that were
supplied. -/
theorem arguments_of_gathers {params : List String} {arguments : Entries Value}
    (h : arguments.Gathers (params.zip values)) (hlength : values.length = params.length) :
    arguments.names = params.eraseDups ∧ (arguments.length = params.length ↔ params.Nodup) ∧
      (params.Nodup → arguments.names = params ∧ arguments.map Prod.snd = values) := by
  have hparams : (params.zip values).map Prod.fst = params :=
    List.map_fst_zip (Nat.le_of_eq hlength.symm)
  have hvalues : (params.zip values).map Prod.snd = values :=
    List.map_snd_zip (Nat.le_of_eq hlength)
  refine ⟨?_, ?_, fun hdistinct => ?_⟩
  · rw [h.names, hparams]
  · have hpairs : (params.zip values).length = params.length := by
      rw [← List.length_map Prod.fst, hparams]
    have hiff := h.length_eq_iff
    rwa [hparams, hpairs] at hiff
  · have heq : arguments = params.zip values := h.eq_of_nodup (hparams.symm ▸ hdistinct)
    exact heq ▸ ⟨hparams, hvalues⟩

/-- What a call comes to, for every algebra, every name and all values. An operation that is not
declared is refused whatever the values are. For a declared one the first declaration counts: any
other number of values than that of its parameters is refused with both numbers, whatever result it
names, and from the right number a request for the operation is made. Its arguments have the
parameters as names, in the order in which each is first declared, and each parameter has the value
that was supplied at its last place. So if the parameters are distinct, then their names and the
values are kept as they are, in order and one entry for each parameter; and if they are not, then
there are fewer entries than parameters. -/
theorem call_exact (a : Algebra) (operation : String) (values : List Value) :
    (operation ∉ a.operationNames →
      a.call operation values = .error (.unknownOperation a.name operation)) ∧
    (operation ∈ a.operationNames → ∃ signature, a.DeclaresFirst operation signature ∧
      (values.length ≠ signature.params.length →
        a.call operation values = .error
          (.wrongArity a.name operation signature.params.length values.length)) ∧
      (values.length = signature.params.length → ∃ arguments,
        a.call operation values = .ok ⟨a.name, operation, arguments⟩ ∧
        arguments.Gathers (signature.params.zip values) ∧
        arguments.names = signature.params.eraseDups ∧
        (arguments.length = signature.params.length ↔ signature.params.Nodup) ∧
        (signature.params.Nodup →
          arguments.names = signature.params ∧ arguments.map Prod.snd = values))) := by
  refine ⟨fun h => call_of_undeclared h values, fun h => ?_⟩
  obtain ⟨signature, hsignature⟩ :=
    Option.ne_none_iff_exists'.1 (mt signature?_eq_none_iff.1 (not_not_intro h))
  have hfirst := signature?_eq_some_iff.1 hsignature
  refine ⟨signature, hfirst, call_of_wrong_arity hfirst, fun hlength => ?_⟩
  have hgathers := Entries.gathers_ofPairs (signature.params.zip values)
  exact ⟨_, call_of_arity hfirst hlength, hgathers, arguments_of_gathers hgathers hlength⟩

/-- An algebra with an operation that declares one parameter twice. -/
def comparing : Algebra := ⟨"comparing", [("same", { params := ["item", "item"] })]⟩

/-- The operation takes two values, and one of them is lost: there is no request whose arguments are
the declared parameters with the supplied values. -/
theorem call_comparing :
    comparing.DeclaresFirst "same" { params := ["item", "item"] } ∧
      comparing.call "same" [.null, .bool true] =
        .ok ⟨"comparing", "same", [("item", .bool true)]⟩ ∧
      ¬ ∃ arguments, comparing.call "same" [.null, .bool true] =
          .ok ⟨"comparing", "same", arguments⟩ ∧
        arguments.names = ["item", "item"] ∧ arguments.map Prod.snd = [.null, .bool true] ∧
        arguments.length = 2 := by
  have hcall : comparing.call "same" [.null, .bool true] =
      .ok ⟨"comparing", "same", [("item", .bool true)]⟩ := rfl
  refine ⟨⟨[], [], rfl, by simp⟩, hcall, ?_⟩
  rintro ⟨arguments, hok, hnames, -⟩
  rw [hcall] at hok
  injection hok with hrequest
  injection hrequest with _ _ harguments
  simp [← harguments, Entries.names] at hnames

end EffectPrograms.Algebra
