import MipsAsm.Text.Basic

/-!
Command-line arguments: options with and without a value, and positional arguments. `--` ends the
options. Each option may be given once. No command lists `--help`, `-h`, `--version` or `-V` among its
options, so these are refused like any other unknown option.
-/

set_option autoImplicit false

namespace MipsAsm

inductive UsageError
  | unknownOption (argument : Text)
  | missingValue (option : Text)
  | unexpectedValue (option : Text)
  | repeatedOption (option : Text)
  | invalidValue (option value : Text)
  | unexpectedArgument (argument : Text)
  | conflict (option argument : Text)
  | missingArgument (argument : Text)
  deriving DecidableEq, Repr

namespace UsageError

open Text in
def message : UsageError → Text
  | unknownOption argument => "unknown option ".toList ++ quoted argument
  | missingValue option => "option ".toList ++ quoted option ++ " needs a value".toList
  | unexpectedValue option => "option ".toList ++ quoted option ++ " takes no value".toList
  | repeatedOption option => "option ".toList ++ quoted option ++ " is given twice".toList
  | invalidValue option value =>
    "invalid value ".toList ++ quoted value ++ " for ".toList ++ quoted option
  | unexpectedArgument argument => "unexpected argument ".toList ++ quoted argument
  | conflict option argument =>
    "option ".toList ++ quoted option ++ " excludes ".toList ++ argument
  | missingArgument argument => "missing ".toList ++ argument

end UsageError

/-- Whether an option stands alone or takes a value. -/
inductive OptionKind
  | flag
  | valued
  deriving DecidableEq, Repr

structure Arguments where
  options : List (Text × Text) := []
  positionals : List Text := []
  deriving DecidableEq, Repr

namespace Arguments

/-- A dash with something behind it. -/
def isDashed : Text → Bool
  | '-' :: _ :: _ => true
  | _ => false

/-- The option's name, and the value behind an equals sign. -/
def splitOption (body : Text) : Text × Option Text :=
  (body.takeWhile (· ≠ '='), (body.dropWhile (· ≠ '=')).tail?)

/-- The value given to an option; a flag has an empty one. -/
def value? (a : Arguments) (option : String) : Option Text := a.options.lookup option.toList

def hasFlag (a : Arguments) (option : String) : Bool := (a.value? option).isSome

def addOption (a : Arguments) (name value : Text) : Except UsageError Arguments :=
  if (a.options.lookup name).isSome then .error (.repeatedOption name)
  else .ok { a with options := a.options ++ [(name, value)] }

def addPositionals (a : Arguments) (values : List Text) : Arguments :=
  { a with positionals := a.positionals ++ values }

/-- Reads arguments behind those in `a`, for the options that `kinds` lists. -/
def scan (kinds : List (Text × OptionKind)) (a : Arguments) : List Text → Except UsageError Arguments
  | [] => .ok a
  | ['-', '-'] :: rest => .ok (a.addPositionals rest)
  | ('-' :: '-' :: body) :: rest =>
    let (name, attached) := splitOption body
    match kinds.lookup name, attached, rest with
    | none, _, _ => .error (.unknownOption name)
    | some .flag, some _, _ => .error (.unexpectedValue name)
    | some .flag, none, rest => do scan kinds (← a.addOption name []) rest
    | some .valued, some value, rest => do scan kinds (← a.addOption name value) rest
    | some .valued, none, [] => .error (.missingValue name)
    | some .valued, none, value :: rest =>
      if isDashed value then .error (.missingValue name)
      else do scan kinds (← a.addOption name value) rest
  | argument :: rest =>
    if isDashed argument then .error (.unknownOption argument)
    else scan kinds (a.addPositionals [argument]) rest

/-- The value of an option that names a file or directory, which must not be empty. -/
def path? (a : Arguments) (option : String) : Except UsageError (Option Text) :=
  match a.value? option with
  | some [] => .error (.invalidValue option.toList [])
  | value => .ok value

end Arguments

end MipsAsm
