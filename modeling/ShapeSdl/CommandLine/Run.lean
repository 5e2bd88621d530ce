import ShapeSdl.CommandLine.Arguments
import ShapeSdl.CommandLine.Disk
import ShapeSdl.Schema.Document

/-!
# A run of the command line

* `shown` : a text as it is shown where there is no terminal: control sequences are left out, and so
  is a carriage return in front of a line feed;
* `Outcome`, `Outcome.exitCode`, `Outcome.message?` : how a run ends, and what is said about it;
* `header`, `commandLine` : the comment in front of the output, and the command that it shows, with
  the last parts of paths only;
* `Job` : a schema, a configuration and an output that are all named by the arguments;
* `run` : a run on a disk, with arguments that are read in some way. It writes at most one file. That
  file is left empty when its text cannot be encoded, and any other run that ends badly writes
  nothing. A run whose message cannot be encoded ends with that fault instead (`Outcome.told`).
-/

namespace ShapeSdl.CommandLine

/-! ## Text as it is shown -/

namespace Shown

/-- The characters between the bracket and the letter of a control sequence. -/
def isParameter (c : Char) : Bool := c.isDigit || c = ';' || c = '?'

/-- The length of the control sequence at the beginning of a text, if there is one. -/
def sequenceLength? : List Char → Option Nat
  | '\x1b' :: '[' :: rest =>
    let parameters := rest.takeWhile isParameter
    match rest.drop parameters.length with
    | c :: _ => if c.isAlpha then some (parameters.length + 3) else none
    | [] => none
  | _ => none

/-- A text without control sequences, `skip` being the characters of one still to leave out. -/
def stripSequences (skip : Nat) : List Char → List Char
  | [] => []
  | c :: rest => match skip with
    | skip + 1 => stripSequences skip rest
    | 0 => match sequenceLength? (c :: rest) with
      | some n => stripSequences (n - 1) rest
      | none => c :: stripSequences 0 rest

/-- A text whose lines all end in a line feed alone. -/
def joinLineEnds : List Char → List Char
  | [] => []
  | '\r' :: '\n' :: rest => '\n' :: joinLineEnds rest
  | c :: rest => c :: joinLineEnds rest

end Shown

def shown (s : String) : String :=
  String.ofList (Shown.joinLineEnds (Shown.stripSequences 0 s.toList))

/-! ## Ends of runs -/

inductive Outcome where
  | done
  /-- The arguments cannot be read, or name a file that is not there. -/
  | usage (fault : UsageFault)
  | failed (fault : Fault)
  /-- A path, a file or a text to be written is not as it must be. -/
  | fileFault (fault : FileFault)

namespace Outcome

def exitCode : Outcome → Nat
  | done => 0
  | usage _ => 2
  | failed _ | fileFault _ => 1

def message? : Outcome → Option String
  | usage fault => some fault.message
  | failed fault => fault.message?
  | done | fileFault _ => none

/-- What a run prints about its end. -/
def output? (outcome : Outcome) : Option String :=
  outcome.message?.map fun message => shown ("Error: " ++ message ++ "\n")

/-- The end of a run that has to say how it ends. A message with half of a surrogate pair cannot be
said. -/
def told (outcome : Outcome) : Outcome :=
  if outcome.message?.any Text.hasHalf then fileFault .notEncodable else outcome

end Outcome

/-- A run: how it ended, the disk after it, what it wrote, and its log. -/
structure Report where
  outcome : Outcome
  disk : Disk
  written : Option (FilePath × String) := none
  log : List Event := []
  /-- Whether the log is shown. -/
  verbose : Bool := false

/-! ## The comment in front -/

def programName : String := "schema_to_sdl"

def version : String := "1.0.0"

def header (command : String) : String :=
  let text := "# Generated by " ++ programName ++ " " ++ version ++ "\n# " ++ command
  String.ofList (text.toList.reverse.dropWhile (· = '\n')).reverse

/-- A setting in a command. Empty values are not shown. -/
def settingWords (s : Setting) : Option String → List String
  | some value => if value = "" then [] else [s.flag, value]
  | none => []

/-- The words of a command behind the name of the program. -/
def commandWords (args : Arguments) (schema output : FilePath) (config : Option FilePath) :
    List String :=
  [schema.name, output.name] ++ settingWords .name args.name ++
    (match config with
      | some config => [Setting.config.flag, config.name]
      | none => []) ++
    (if args.strict then [Switch.strict.flag] else []) ++
    (if args.preserveEnumCase then [Switch.preserveEnumCase.flag] else []) ++
    (if args.verbose then [Switch.verbose.flag] else [])

def commandLine (words : List String) : String := " ".intercalate (programName :: words)

/-! ## Jobs -/

structure Job where
  args : Arguments
  schema : FilePath
  output : FilePath
  config : Option FilePath

namespace Job

def path (disk : Disk) (text : String) : Except Outcome FilePath :=
  (disk.resolve text).mapError .fileFault

/-- The path that a text names, which must lead to something. -/
def existingPath (disk : Disk) (hint text : String) : Except Outcome FilePath := do
  let p ← path disk text
  if (disk.find? p).isSome then return p else throw (.usage (.missingFile hint text))

/-- The job of the arguments. The configuration is looked for first, then the schema; a positional
argument too many is noticed last. -/
def ofArguments (disk : Disk) (args : Arguments) : Except Outcome Job := do
  let config ← args.config.mapM (existingPath disk Setting.config.hint)
  match args.positional with
  | [] => throw (.usage (.missingArgument .schema))
  | schema :: rest =>
    let schema ← existingPath disk Place.schema.hint schema
    match rest with
    | [] => throw (.usage (.missingArgument .output))
    | output :: more =>
      let output ← path disk output
      if more.isEmpty then return ⟨args, schema, output, config⟩
      else throw (.usage (.extraArguments more))

def readJson (disk : Disk) (p : FilePath) : Except Outcome Json :=
  match disk.fileText p with
  | .error fault => .error (.fileFault fault)
  | .ok text => (Json.read text).mapError fun fault => .fileFault (.notJson fault)

/-- The options of the configuration, with what the switches turn on. -/
def options (job : Job) (disk : Disk) : Except Outcome Options := do
  let o ← match job.config with
    | none => pure {}
    | some config => (Options.ofConfiguration (← readJson disk config)).mapError .failed
  let o := if job.args.strict then { o with strict := .bool true } else o
  return if job.args.preserveEnumCase then { o with preserveEnumCase := .bool true } else o

/-- The name of the root: the given one, or that of the schema's file. -/
def rootName (job : Job) : String :=
  job.args.name.getD (TypeName.ofFile job.schema.absolute)

def outputText (job : Job) (o : Options) (document : Document) : String :=
  let words := commandWords job.args job.schema job.output job.config
  let front := if o.addGenerationComment.isTruthy then header (commandLine words) ++ "\n\n" else ""
  front ++ document.text ++ "\n"

/-- Writes the text of the output, or nothing into the file if the text cannot be encoded. -/
def write (job : Job) (text : String) (report : Report) : Report :=
  let encodable := !Text.hasHalf text
  let written := if encodable then text else ""
  match report.disk.store job.output written with
  | .error fault => { report with outcome := .fileFault fault }
  | .ok disk =>
    { report with
      outcome := if encodable then .done else .fileFault .notEncodable
      disk
      written := some (job.output, written) }

def perform (job : Job) (disk : Disk) : Report :=
  let report : Report := { outcome := .done, disk, verbose := job.args.verbose }
  match readJson disk job.schema with
  | .error outcome => { report with outcome }
  | .ok schema => match job.options disk with
    | .error outcome => { report with outcome }
    | .ok o =>
      let compilation := Compilation.ofSchema schema job.rootName o
      let report := { report with log := compilation.log }
      match compilation.result with
      | .error fault => { report with outcome := .failed fault }
      | .ok document => job.write (job.outputText o document) report

end Job

def act (parse : ArgumentReader) (disk : Disk) (args : List String) : Report :=
  match parse args with
  | .error message => { outcome := .usage (.unreadable message), disk }
  | .ok args =>
    if args.help then { outcome := .done, disk }
    else match Job.ofArguments disk args with
      | .error outcome => { outcome, disk }
      | .ok job => job.perform disk

def run (parse : ArgumentReader) (disk : Disk) (args : List String) : Report :=
  let report := act parse disk args
  { report with outcome := report.outcome.told }

end ShapeSdl.CommandLine
