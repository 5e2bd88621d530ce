import ShapeSdl.CommandLine.Run

/-!
# The program

* `look` : the disk as far as a text leads through it, from the files there are;
* `program` : a run on the files that the arguments name. What the run writes is written, its log
  and its errors are shown.
-/

namespace ShapeSdl.CommandLine

def FilePath.plain (p : FilePath) : String := Text.toPlain p.absolute

def probe (p : FilePath) : IO (Option DiskEntry) := do
  try
    return some (.file (Text.ofPlain (← IO.FS.readFile p.plain)))
  catch
    | .inappropriateType .. => return some .directory
    | .userError _ => return some (.file "")
    | _ => return none

/-- The disk with everything on the way that a text names. -/
def look (disk : Disk) (text : String) : IO Disk := do
  let .ok p := disk.resolve text | return disk
  let mut disk := disk
  for n in [1 : p.length + 1] do
    let way := p.take n
    if (disk.find? way).isNone then
      if let some entry ← probe way then disk := disk.install way entry
  return disk

def program (args : List String) : IO UInt32 := do
  let args := args.map Text.ofPlain
  let working := FilePath.ofText [] (Text.ofPlain (toString (← IO.currentDir)))
  let mut disk := Disk.ofWorking (working.toOption.getD [])
  if let .ok read := Arguments.parse args then
    for text in read.positional ++ read.config.toList do disk ← look disk text
  let report := run Arguments.parse disk args
  if report.verbose then
    for event in report.log do IO.eprintln (Text.toPlain event.message)
  if let some (path, text) := report.written then IO.FS.writeFile path.plain (Text.toPlain text)
  match report.outcome with
  | .done => pure ()
  | .usage _ => IO.eprintln ("Usage: " ++ programName ++ " [OPTIONS] PATH OUTPUT")
  | .fileFault _ => IO.eprintln "A file cannot be read or written."
  | .failed (.misuse _) => IO.eprintln "A value of the wrong kind was met."
  | .failed _ => pure ()
  IO.eprint (Text.toPlain (report.outcome.output?.getD ""))
  return report.outcome.exitCode.toUInt32

end ShapeSdl.CommandLine

def main (args : List String) : IO UInt32 := ShapeSdl.CommandLine.program args
