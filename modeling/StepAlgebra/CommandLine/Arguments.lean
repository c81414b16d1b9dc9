import StepAlgebra.Search.Input

/-!
# Arguments

The options of the command line. An option takes its value from the same argument or from the
next one, which must not begin with `-`; letters of options without a value may be written
together. After `--` an argument is the input, however it begins. How much is logged changes
nothing in a run, so it is read and not kept.
-/

namespace StepAlgebra.CommandLine

/-- What the command line asks for. -/
structure Arguments where
  input : Option String := none
  mode : Option Mode := none
  rounding : Option Rounding := none
  maxRounds : Option Nat := none
  parallel : Bool := false

/-- Why arguments are not run. -/
inductive Stop where
  /-- Help is asked for, and nothing else counts from there on. -/
  | help
  /-- The version is asked for, and nothing else counts from there on. -/
  | version
  /-- The arguments are not understood. -/
  | misuse
  deriving DecidableEq

/-- An option that takes a value. -/
inductive Setting where
  | mode
  | rounding
  | maxRounds
  deriving DecidableEq

namespace Setting

/-- The setting of a long option. -/
def ofName? : String → Option Setting
  | "mode" => some mode
  | "rounding" => some rounding
  | "max-rounds" => some maxRounds
  | _ => none

/-- The setting of a letter. -/
def ofLetter? : Char → Option Setting
  | 'm' => some mode
  | 'r' => some rounding
  | _ => none

/-- Stores a value, unless the setting has one or the value is none of its. -/
def store (s : Setting) (value : String) (a : Arguments) : Except Stop Arguments :=
  match s with
  | mode =>
      match a.mode, Mode.ofName? value with
      | none, some m => .ok { a with mode := some m }
      | _, _ => .error .misuse
  | rounding =>
      match a.rounding, Rounding.ofName? value with
      | none, some r => .ok { a with rounding := some r }
      | _, _ => .error .misuse
  | maxRounds =>
      match a.maxRounds, naturalBelow? UInt64.size value with
      | none, some n => .ok { a with maxRounds := some n }
      | _, _ => .error .misuse

end Setting

/-- The arguments read so far. -/
structure Progress where
  arguments : Arguments := {}
  /-- The setting that the next argument is the value of. -/
  pending : Option Setting := none
  /-- True after `--`. -/
  inputOnly : Bool := false

namespace Progress

/-- Takes an argument as the input, of which there is one at most. -/
def takeInput (p : Progress) (argument : String) : Except Stop Progress :=
  match p.arguments.input with
  | none => .ok { p with arguments := { p.arguments with input := some argument } }
  | some _ => .error .misuse

/-- Stores the value of a setting. -/
def takeValue (p : Progress) (s : Setting) (value : String) : Except Stop Progress :=
  (s.store value p.arguments).map fun arguments => { p with arguments, pending := none }

/-- Takes a long option, without its dashes. -/
def takeLong (p : Progress) (option : List Char) : Except Stop Progress :=
  let name := String.ofList (option.takeWhile (· ≠ '='))
  match Setting.ofName? name, option.dropWhile (· ≠ '=') with
  | some s, [] => .ok { p with pending := some s }
  | some s, _ :: value => p.takeValue s (String.ofList value)
  | none, _ :: _ => .error .misuse
  | none, [] =>
      match name with
      | "help" => .error .help
      | "version" => .error .version
      | "verbose" => .ok p
      | "parallel" =>
          if p.arguments.parallel then
            .error .misuse
          else
            .ok { p with arguments := { p.arguments with parallel := true } }
      | _ => .error .misuse

/-- Takes letters of options; a setting takes the rest of them as its value. -/
def takeLetters (p : Progress) : List Char → Except Stop Progress
  | [] => .ok p
  | 'h' :: _ => .error .help
  | 'V' :: _ => .error .version
  | 'v' :: letters => p.takeLetters letters
  | letter :: rest =>
      match Setting.ofLetter? letter, rest with
      | none, _ => .error .misuse
      | some s, [] => .ok { p with pending := some s }
      | some s, '=' :: value => p.takeValue s (String.ofList value)
      | some s, value => p.takeValue s (String.ofList value)

/-- Takes the next argument. -/
def take (p : Progress) (argument : String) : Except Stop Progress :=
  match p.inputOnly, p.pending, argument.toList with
  | true, none, _ => p.takeInput argument
  | _, some s, ['-'] => p.takeValue s argument
  | _, some _, '-' :: _ => .error .misuse
  | _, some s, _ => p.takeValue s argument
  | false, none, ['-'] => p.takeInput argument
  | false, none, ['-', '-'] => .ok { p with inputOnly := true }
  | false, none, '-' :: '-' :: option => p.takeLong option
  | false, none, '-' :: letters => p.takeLetters letters
  | false, none, _ => p.takeInput argument

end Progress

namespace Arguments

/-- Reads the arguments of the command line. -/
def read (arguments : List String) : Except Stop Arguments :=
  match arguments.foldlM Progress.take {} with
  | .error stop => .error stop
  | .ok p => if p.pending.isSome then .error .misuse else .ok p.arguments

/-- The search that the arguments ask for on an input. -/
def search (a : Arguments) (input : String) : Search :=
  { mode := a.mode.getD (Mode.suggested input)
    rounding := a.rounding.getD .decimals
    maxRounds := a.maxRounds.getD 25 }

end Arguments

end StepAlgebra.CommandLine
