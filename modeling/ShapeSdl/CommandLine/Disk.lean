import ShapeSdl.Entries
import ShapeSdl.Json.Reader
import ShapeSdl.Text.Split

/-!
# Files and directories

A name is a text for its reader and bytes for the disk. Characters are encoded in UTF-8. The halves
U+DC80 to U+DCFF stand for the single bytes 0x80 to 0xFF, so that every sequence of bytes can be
named; another half has no encoding. Two texts may thus name one file.

* `FileFault` : what stands in the way of naming, reading or writing a file;
* `FileName.symbolBytes?`, `FileName.bytes?` : the bytes of a symbol and of a text;
* `FileName`, `FileName.ofText` : a text with its bytes, none of them zero;
* `FilePath` : the way from the root of the file system, name by name. `key` tells paths apart;
* `FilePath.ofText` : the path that a text names: empty parts and points are left out, and two
  points take back the part before. The first part that is no name is the fault;
* `Disk` : files and directories by path, and the working directory;
* `Disk.resolve` : the path that a text names;
* `Disk.fileText`, `Disk.store` : reading and writing a file, with what may stand in the way.
-/

namespace ShapeSdl.CommandLine

inductive FileFault where
  | missing
  | isDirectory
  /-- A part on the way is a file. -/
  | notDirectory
  /-- A name or a path has too many bytes. -/
  | nameTooLong
  /-- A text holds half of a surrogate pair where it has no encoding. -/
  | notEncodable
  /-- The text that names the path holds U+0000. -/
  | notPath
  /-- The text of the file is no JSON. -/
  | notJson (fault : Json.ReadFault)
deriving DecidableEq

/-! ## Names -/

namespace FileName

/-- The bytes of a symbol in a name, if it has an encoding. -/
def symbolBytes? : Text.Symbol → Option (List UInt8)
  | .char c => some (String.utf8EncodeChar c)
  | .half n => if 0x480 ≤ n.1 ∧ n.1 < 0x500 then some [UInt8.ofNat (n - 0x400)] else none

def bytes? (text : String) : Option (List UInt8) :=
  ((Text.symbols text.toList).mapM symbolBytes?).map List.flatten

end FileName

structure FileName where
  text : String
  bytes : List UInt8
  encoded : FileName.bytes? text = some bytes
  zero_notMem : 0 ∉ bytes
deriving DecidableEq

/-- The name that a text is. A text without an encoding is no name, whatever else it holds. -/
def FileName.ofText (text : String) : Except FileFault FileName :=
  match encoded : bytes? text with
  | none => .error .notEncodable
  | some bytes => if h : 0 ∈ bytes then .error .notPath else .ok ⟨text, bytes, encoded, h⟩

theorem FileName.ext_text {a b : FileName} (h : a.text = b.text) : a = b := by
  obtain ⟨text, bytes, ha, _⟩ := a
  obtain ⟨text', bytes', hb, _⟩ := b
  cases h
  cases ha.symm.trans hb
  rfl

/-! ## Paths -/

/-- The names from the root of the file system. -/
abbrev FilePath := List FileName

namespace FilePath

/-- What tells paths apart: the bytes of their names. -/
def key (p : FilePath) : List (List UInt8) := p.map FileName.bytes

def name (p : FilePath) : String := (p.getLast?.map FileName.text).getD ""

def absolute (p : FilePath) : String := "/" ++ "/".intercalate (p.map FileName.text)

/-- The number of bytes in a path that is not the root, one in front of each name. -/
def size (p : FilePath) : Nat := p.foldl (fun n name => n + 1 + name.bytes.length) 0

def step (p : FilePath) (part : String) : Except FileFault FilePath :=
  if part = "" ∨ part = "." then .ok p
  else if part = ".." then .ok p.dropLast
  else (FileName.ofText part).map fun name => p ++ [name]

/-- The path that a text names where relative paths begin at `base`. -/
def ofText (base : FilePath) (text : String) : Except FileFault FilePath :=
  (Text.split '/' text).foldlM step (if Text.startsWith "/" text then [] else base)

end FilePath

/-! ## Disks -/

def maxNameSize : Nat := 255

def maxPathSize : Nat := 4095

inductive DiskEntry where
  | directory
  | file (text : String)
deriving DecidableEq

/-- Files and directories by the keys of their paths, and the directory in which relative paths
begin. -/
structure Disk where
  working : FilePath
  entries : Entries (List (List UInt8)) DiskEntry

namespace Disk

/-- What a path leads to. The root is always there. -/
def find? (d : Disk) (p : FilePath) : Option DiskEntry :=
  if p.isEmpty then some .directory else d.entries.get? p.key

def resolve (d : Disk) (text : String) : Except FileFault FilePath :=
  FilePath.ofText d.working text

def fileText (d : Disk) (p : FilePath) : Except FileFault String :=
  match d.find? p with
  | some (.file text) => .ok text
  | some .directory => .error .isDirectory
  | none => .error .missing

/-- What stands in the way of a file that is not there yet and lies at `rest` behind `way`: what is
met first on the way. -/
def obstacle? (d : Disk) (way : FilePath) : FilePath → Option FileFault
  | [] => none
  | name :: rest => match d.find? way with
    | none => some .missing
    | some (.file _) => some .notDirectory
    | some .directory =>
      if maxNameSize < name.bytes.length then some .nameTooLong
      else obstacle? d (way ++ [name]) rest

def store (d : Disk) (p : FilePath) (text : String) : Except FileFault Disk :=
  let stored : Disk := { d with entries := d.entries.put p.key (.file text) }
  match d.find? p with
  | some .directory => .error .isDirectory
  | some (.file _) => .ok stored
  | none =>
    if maxPathSize < p.size then .error .nameTooLong
    else match d.obstacle? [] p with
      | some fault => .error fault
      | none => .ok stored

/-- The disk with a file and the directories on the way to it. -/
def install (d : Disk) (p : FilePath) (entry : DiskEntry) : Disk :=
  let way := ((List.range p.length).map p.take).filter fun q => (d.find? q).isNone
  { d with entries := (d.entries.putAll (way.map fun q => (q.key, .directory))).put p.key entry }

def ofWorking (working : FilePath) : Disk := install ⟨working, ∅⟩ working .directory

end Disk

end ShapeSdl.CommandLine
