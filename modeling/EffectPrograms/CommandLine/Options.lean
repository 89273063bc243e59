import EffectPrograms.Entries

/-!
# Options of a command line

An option is written `--name value`, `--name=value`, or after a short name `-n value`, `-nvalue` or
`-n=value`; a switch has no value. A value that starts with a dash has to be attached, unless it is
a single dash. No option comes twice.
-/

namespace EffectPrograms.CommandLine

/-- An option that a command takes. -/
structure OptionSpec where
  /-- The name after two dashes. -/
  name : String
  /-- The name after one dash. -/
  short : Option Char := none
  /-- Whether it is a switch. -/
  isSwitch : Bool := false
  /-- Whether its value may be empty. -/
  allowsEmpty : Bool := true

/-- The options that were given, and the arguments from the first that is no option on. -/
structure Given where
  options : Entries String
  rest : List String

/-- Whether an argument stands for a value and not for an option. -/
def isValue (arg : String) : Bool := !arg.startsWith "-" || arg == "-"

/-- An option in an argument: its specification and an attached value. -/
def recognize (specs : List OptionSpec) (arg : String) : Option (OptionSpec × Option String) :=
  match arg.toList with
  | '-' :: '-' :: body => do
    let name := String.ofList (body.takeWhile (· != '='))
    let spec ← specs.find? fun spec => spec.name == name
    match body.dropWhile (· != '=') with
    | _ :: value => some (spec, some (String.ofList value))
    | [] => some (spec, none)
  | '-' :: short :: attached => do
    let spec ← specs.find? fun spec => spec.short == some short
    match attached with
    | [] => some (spec, none)
    | '=' :: value => some (spec, some (String.ofList value))
    | value => some (spec, some (String.ofList value))
  | _ => none

/-- Keeps an option that was not given before. -/
def keep (options : Entries String) (spec : OptionSpec) (value : String) :
    Option (Entries String) :=
  if options.contains spec.name || (value.isEmpty && !spec.allowsEmpty && !spec.isSwitch) then none
  else some (options ++ [(spec.name, value)])

/-- Takes options off the front of the arguments; none if one is used wrongly. -/
def takeOptions (specs : List OptionSpec) (options : Entries String) :
    List String → Option Given
  | [] => some ⟨options, []⟩
  | arg :: rest =>
    if isValue arg || arg == "--" then some ⟨options, arg :: rest⟩
    else do
      let (spec, attached) ← recognize specs arg
      if spec.isSwitch then
        if attached.isSome then none
        else takeOptions specs (← keep options spec "") rest
      else
        match attached, rest with
        | some value, rest => takeOptions specs (← keep options spec value) rest
        | none, value :: rest =>
          if isValue value then takeOptions specs (← keep options spec value) rest else none
        | none, [] => none

/-- The options of a command that takes nothing else. -/
def onlyOptions (specs : List OptionSpec) (args : List String) : Option (Entries String) := do
  let given ← takeOptions specs [] args
  if given.rest = [] || given.rest = ["--"] then some given.options else none

end EffectPrograms.CommandLine
