import ShapeSdl.Text.Quoted

/-!
# Arguments of the command line

* `Arguments` : what the arguments say;
* `ArgumentReader` : a way of reading them. A run takes one; `Arguments.parse` is the one of the
  program;
* `UsageFault`, `UsageFault.message` : what is wrong with arguments;
* `Token.ofArgument` : what one argument is: positional, the end of all options, switches, or a
  setting with or without its value. A long option may carry a value behind `=`; short ones may be
  written together, the last of them with its value;
* `Arguments.readOn` : what all arguments say. A setting without a value of its own takes the
  argument after it, and of a repeated one the last value counts.
-/

namespace ShapeSdl.CommandLine

/-- Options that are on or off. -/
inductive Switch where
  | strict
  | preserveEnumCase
  | verbose
  | help
deriving DecidableEq

/-- Options with a value. -/
inductive Setting where
  | name
  | config
deriving DecidableEq

inductive OptionWord where
  | switch (s : Switch)
  | setting (s : Setting)
deriving DecidableEq

structure Arguments where
  name : Option String := none
  config : Option String := none
  strict : Bool := false
  preserveEnumCase : Bool := false
  verbose : Bool := false
  help : Bool := false
  positional : List String := []
deriving DecidableEq

/-- Reads arguments, or says what is wrong with them. -/
abbrev ArgumentReader := List String → Except String Arguments

def Switch.flag : Switch → String
  | strict => "--strict"
  | preserveEnumCase => "--preserve-enum-case"
  | verbose => "--verbose"
  | help => "--help"

def Setting.flag : Setting → String
  | name => "--name"
  | config => "--config"

def Setting.letter : Setting → Char
  | name => 'n'
  | config => 'c'

def longOptions : List (String × OptionWord) :=
  [Setting.name, .config].map (fun s => (s.flag, .setting s)) ++
    [Switch.strict, .preserveEnumCase, .verbose, .help].map fun s => (s.flag, .switch s)

def shortOptions : List (Char × OptionWord) :=
  [Setting.name, .config].map (fun s => (s.letter, .setting s)) ++ [('v', .switch .verbose)]

/-! ## Faults -/

/-- The positional arguments that there must be. -/
inductive Place where
  | schema
  | output
deriving DecidableEq

inductive UsageFault where
  /-- They cannot be read. -/
  | unreadable (message : String)
  | missingArgument (place : Place)
  /-- A file that has to exist does not. The hint says which argument names it. -/
  | missingFile (hint text : String)
  | extraArguments (args : List String)
deriving DecidableEq

def Place.label : Place → String
  | schema => "PATH"
  | output => "OUTPUT"

def Place.hint (place : Place) : String := "'" ++ place.label ++ "'"

def Setting.hint (s : Setting) : String :=
  "'" ++ s.flag ++ "' / '-" ++ String.singleton s.letter ++ "'"

/-- The message of a fault. Arguments that nobody expects are shown as they are. -/
def UsageFault.message : UsageFault → String
  | unreadable message => message
  | missingArgument place => "Missing argument " ++ place.hint ++ "."
  | missingFile hint text =>
    "Invalid value for " ++ hint ++ ": Path " ++ Text.quoted text ++ " does not exist."
  | extraArguments [arg] => "Got unexpected extra argument (" ++ arg ++ ")"
  | extraArguments args => "Got unexpected extra arguments (" ++ " ".intercalate args ++ ")"

/-- What is wrong with an option. The flag is the one that was given. -/
inductive OptionFault where
  | unknown (flag : String)
  | withoutValue (flag : String)
  | withValue (flag : String)
deriving DecidableEq

/-- The message of a fault. Options that may have been meant are not told. -/
def OptionFault.message : OptionFault → String
  | unknown flag => "No such option: " ++ flag
  | withoutValue flag => "Option '" ++ flag ++ "' requires an argument."
  | withValue flag => "Option '" ++ flag ++ "' does not take a value."

/-! ## Single arguments -/

inductive Token where
  | positional
  | endOfOptions
  | switches (on : List Switch)
  | setting (on : List Switch) (flag : String) (s : Setting) (value : Option String)
deriving DecidableEq

namespace Token

/-- Letters written together, behind the switches `on`. -/
def ofLetters (on : List Switch) : List Char → Except OptionFault Token
  | [] => .ok (switches on)
  | c :: rest =>
    match shortOptions.lookup c with
    | some (.switch s) => ofLetters (on ++ [s]) rest
    | some (.setting s) =>
      let flag := "-" ++ String.singleton c
      .ok (setting on flag s (if rest.isEmpty then none else some (String.ofList rest)))
    | none => .error (.unknown ("-" ++ (Text.characters (String.ofList (c :: rest))).headD ""))

/-- A long option, with the value behind `=` if there is one. -/
def ofLong (word : List Char) : Except OptionFault Token :=
  let key := String.ofList (word.takeWhile (· ≠ '='))
  let value := match word.dropWhile (· ≠ '=') with
    | [] => none
    | _ :: value => some (String.ofList value)
  match longOptions.lookup key, value with
  | some (.setting s), value => .ok (setting [] key s value)
  | some (.switch s), none => .ok (switches [s])
  | some (.switch _), some _ => .error (.withValue key)
  | none, _ => .error (.unknown key)

def ofArgument (arg : String) : Except OptionFault Token :=
  match arg.toList with
  | ['-', '-'] => .ok endOfOptions
  | '-' :: '-' :: rest => ofLong ('-' :: '-' :: rest)
  | '-' :: c :: rest => ofLetters [] (c :: rest)
  | _ => .ok positional

end Token

/-! ## All arguments -/

namespace Arguments

def turnOn (a : Arguments) : Switch → Arguments
  | .strict => { a with strict := true }
  | .preserveEnumCase => { a with preserveEnumCase := true }
  | .verbose => { a with verbose := true }
  | .help => { a with help := true }

def make (a : Arguments) (s : Setting) (value : String) : Arguments :=
  match s with
  | .name => { a with name := some value }
  | .config => { a with config := some value }

def addPositional (a : Arguments) (args : List String) : Arguments :=
  { a with positional := a.positional ++ args }

def readOn (a : Arguments) : List String → Except OptionFault Arguments
  | [] => .ok a
  | arg :: rest =>
    match Token.ofArgument arg with
    | .error fault => .error fault
    | .ok .positional => readOn (a.addPositional [arg]) rest
    | .ok .endOfOptions => .ok (a.addPositional rest)
    | .ok (.switches on) => readOn (on.foldl turnOn a) rest
    | .ok (.setting on _ s (some value)) => readOn ((on.foldl turnOn a).make s value) rest
    | .ok (.setting on flag s none) =>
      match rest with
      | [] => .error (.withoutValue flag)
      | value :: rest => readOn ((on.foldl turnOn a).make s value) rest

/-- What the arguments of the program say. -/
def parse : ArgumentReader := fun args => (readOn {} args).mapError OptionFault.message

end Arguments

end ShapeSdl.CommandLine
