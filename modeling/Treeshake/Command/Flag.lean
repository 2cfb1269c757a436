/-!
Flags of a command line: their spelling, the values they take, and the reading of arguments.
-/
set_option autoImplicit false

namespace Treeshake

inductive UsageFault where
  | unknownFlag (text : String)
  | missingValue (flag : String)
  | needlessValue (flag : String)
  | invalidValue (flag value : String)
  | repeated (flag : String)
  | unexpected (text : String)
  | missingCommand
  | unknownCommand (name : String)
  deriving DecidableEq, Repr

def UsageFault.message : UsageFault → String
  | .unknownFlag text | .unexpected text => s!"unexpected argument '{text}' found"
  | .missingValue flag => s!"a value is required for '--{flag}' but none was supplied"
  | .needlessValue flag => s!"unexpected value for '--{flag}' found; no more were expected"
  | .invalidValue flag value => s!"invalid value '{value}' for '--{flag}'"
  | .repeated flag => s!"the argument '--{flag}' cannot be used multiple times"
  | .missingCommand => "a subcommand is required but none was given"
  | .unknownCommand name => s!"unrecognized subcommand '{name}'"

/-- How many values a flag takes: none, one, or at most one. -/
inductive FlagValue where
  | none
  | one
  | optional
  deriving DecidableEq, Repr

structure Flag where
  long : String
  short : Option Char := none
  value : FlagValue := .none
  repeatable : Bool := false
  accepts : String → Bool := fun _ => true

inductive Argument where
  | flag (f : Flag) (value : Option String)
  | word (text : String)
  | command (name : String) (rest : List String)
  | fault (cause : UsageFault)

namespace Argument

def isFlagLike : List Char → Bool
  | '-' :: _ :: _ => true
  | _ => false

/-- What a word of short flags says, and the flag at its end that still wants a value. A value may
follow its flag directly or behind an equals sign. -/
def ofShort (flags : List Flag) : List Char → List Argument × Option Flag
  | [] => ([], none)
  | c :: cs =>
    match flags.find? (·.short == some c) with
    | none => ([.fault (.unknownFlag (String.ofList ['-', c]))], none)
    | some f =>
      match f.value, cs with
      | .none, cs =>
        let (items, waiting) := ofShort flags cs
        (.flag f none :: items, waiting)
      | _, [] => ([], some f)
      | _, '=' :: v => ([.flag f (some (String.ofList v))], none)
      | _, v => ([.flag f (some (String.ofList v))], none)

def ofLong (flags : List Flag) (cs : List Char) : List Argument × Option Flag :=
  let name := String.ofList (cs.takeWhile (· != '='))
  match flags.find? (·.long == name), cs.drop name.length with
  | none, _ => ([.fault (.unknownFlag ("--" ++ name))], none)
  | some f, '=' :: v =>
    if f.value == .none then ([.fault (.needlessValue name)], none)
    else ([.flag f (some (String.ofList v))], none)
  | some f, _ => if f.value == .none then ([.flag f none], none) else ([], some f)

/-- Reads arguments one after the other. Two dashes make all that follow free words; without them the
first free word is a command where `commands` are wanted. -/
def read (flags : List Flag) (commands : Bool) : Bool → List String → List Argument
  | _, [] => []
  | true, a :: rest => .word a :: read flags commands true rest
  | false, a :: rest =>
    if a == "--" then read flags commands true rest
    else if !isFlagLike a.toList then
      if commands then [.command a rest] else .word a :: read flags commands false rest
    else
      let (items, waiting) := match a.toList with
        | '-' :: '-' :: cs => ofLong flags cs
        | cs => ofShort flags cs.tail
      match waiting, rest with
      | none, rest => items ++ read flags commands false rest
      | some f, [] => items ++ [.flag f none]
      | some f, v :: rest =>
        if isFlagLike v.toList then items ++ .flag f none :: read flags commands false (v :: rest)
        else items ++ .flag f (some v) :: read flags commands false rest

end Argument

inductive Halt where
  | help
  | version
  | usage (cause : UsageFault)
  deriving DecidableEq, Repr

structure Given where
  flags : List (String × Option String) := []
  words : List String := []
  command : Option (String × List String) := none

namespace Given

def has (g : Given) (flag : String) : Bool := g.flags.any (·.1 == flag)

def values (g : Given) (flag : String) : List String :=
  (g.flags.filter (·.1 == flag)).filterMap (·.2)

def value? (g : Given) (flag : String) : Option String := (g.values flag).head?

def addFlag (g : Given) (f : Flag) (value : Option String) : Except Halt Given :=
  if f.long == "help" then .error .help
  else if f.long == "version" then .error .version
  else if f.value == .one && value.isNone then .error (.usage (.missingValue f.long))
  else if value.any (!f.accepts ·) then .error (.usage (.invalidValue f.long (value.getD "")))
  else if !f.repeatable && g.has f.long then .error (.usage (.repeated f.long))
  else .ok { g with flags := g.flags ++ [(f.long, value)] }

/-- Takes arguments in until one of them does not fit; no more than `room` words do. -/
def collect (room : Nat) : Given → List Argument → Except Halt Given
  | g, [] => .ok g
  | g, .flag f value :: items => do collect room (← g.addFlag f value) items
  | g, .word text :: items =>
    if g.words.length < room then collect room { g with words := g.words ++ [text] } items
    else .error (.usage (.unexpected text))
  | g, .command name rest :: _ => .ok { g with command := some (name, rest) }
  | _, .fault cause :: _ => .error (.usage cause)

end Given

end Treeshake
