import ProjectDb.Foundation.Directory
import ProjectDb.Foundation.ByteStream
import ProjectDb.Table
import Mathlib.Data.List.Sort

namespace ProjectDb

inductive FileExt
  | sst | ip | merged | txl | deprecated
  deriving DecidableEq, Repr

def FileExt.text : FileExt → String
  | sst => ".sst"
  | ip => ".ip"
  | merged => ".merged"
  | txl => ".txl"
  | deprecated => ".deprecated"

/-- A file name the database generates: `project_db_<counter>` and its extensions. -/
structure FileName where
  counter : Nat
  exts : List FileExt
  deriving DecidableEq, Repr

namespace FileName

def text (name : FileName) : String :=
  "project_db_" ++ toString name.counter ++ String.join (name.exts.map FileExt.text)

/-- `path::extension()`, the last extension of the name. -/
def extension (name : FileName) : Option FileExt := name.exts.getLast?

/-- `path::replace_extension()` without an argument. -/
def removeExt (name : FileName) : FileName := { name with exts := name.exts.dropLast }

def add (name : FileName) (ext : FileExt) : FileName := { name with exts := name.exts ++ [ext] }

@[simp] theorem extension_add (name : FileName) (ext : FileExt) : (name.add ext).extension = some ext := by
  simp [extension, add]

@[simp] theorem removeExt_add (name : FileName) (ext : FileExt) : (name.add ext).removeExt = name := by
  simp [removeExt, add]

@[simp] theorem counter_add (name : FileName) (ext : FileExt) : (name.add ext).counter = name.counter := rfl

end FileName

def genSSTableFileName (counter : Nat) : FileName := ⟨counter, [.sst]⟩
def genFlushInProgressSSTableFileName (name : FileName) : FileName := name.add .ip
def genMergedSSTableFileName (name : FileName) : FileName := name.add .merged
def genTransactionLogFileName (counter : Nat) : FileName := ⟨counter, [.txl]⟩
def genDeprecatedFileName (name : FileName) : FileName := name.add .deprecated

@[simp] theorem extension_genSSTableFileName (counter : Nat) :
    (genSSTableFileName counter).extension = some .sst := rfl

@[simp] theorem extension_genTransactionLogFileName (counter : Nat) :
    (genTransactionLogFileName counter).extension = some .txl := rfl

/-- `getCounterFromFileName`: `stoi` throws for a counter outside of `int`. -/
def getCounterFromFileName (name : FileName) : Except Exn Nat :=
  if name.counter < 2 ^ 31 then .ok name.counter else .error .outOfRange

/-- The directory `DB_FILE_PATH`. -/
abbrev Files := Directory FileName (List Byte)

/-- File operations: they act on the directory and may throw. -/
abbrev FileM := EStateM Exn Files

def markFileAsDeprecated (name : FileName) : FileM Unit := fun files =>
  match files.rename name (genDeprecatedFileName name) with
  | some files => .ok () files
  | none => .error .filesystemError files

/-- A path as a stream prints it, in quotes. -/
def quoted (path : String) : String :=
  "\"" ++ String.ofList (path.toList.flatMap fun c => if c ∈ "\"\\".toList then "\\".toList ++ [c] else [c]) ++ "\""

/-- Where a file is while no line of the configuration sets `DB_FILE_PATH`. -/
def fullFilePath (fileName : String) : String := "./projectdb" ++ "/" ++ fileName

/-- Removes the last extension of the file, and renames the file with this new name. -/
def removeExtAndRename (name : FileName) : FileM FileName := fun files =>
  match files.rename name name.removeExt with
  | some files => .ok name.removeExt files
  | none =>
    .error (.dbException ("Non-existing file path while trying to remove ext and rename: " ++
      quoted (fullFilePath name.text))) files

def filesWithExt (files : Files) (ext : FileExt) : List FileName :=
  files.names.filter fun name => name.extension = some ext

def removeFile (name : FileName) : FileM Unit := fun files => .ok () (files.remove name)

def removeFilesWithExt (ext : FileExt) : FileM Unit := fun files =>
  .ok () (files.removeNames (filesWithExt files ext))

/-- Sorted by counter. Comparing two names throws when `stoi` does. -/
def getFilesWithExtSorted (ext : FileExt) : FileM (List FileName) := fun files =>
  let names := filesWithExt files ext
  if 2 ≤ names.length ∧ ∃ name ∈ names, 2 ^ 31 ≤ name.counter then .error .outOfRange files
  else .ok (names.insertionSort fun a b => a.counter ≤ b.counter) files

def getFileSizeInBytes (name : FileName) : FileM Nat := fun files =>
  match files.read name with
  | some contents => .ok contents.length files
  | none => .error .filesystemError files

/-- An input stream on the file; opening a missing file sets the fail bit. -/
def getFileStream (files : Files) (name : FileName) : IStream :=
  match files.read name with
  | some contents => .between [] contents
  | none => ⟨[], 0, false, true⟩

/-- Write a whole file. A file offset has 63 bits, so that a write past them fails. -/
def writeFile (name : FileName) (contents : List Byte) : FileM Unit := fun files =>
  if contents.length < 2 ^ 63 then .ok () (files.write name contents)
  else .error (.dbException "Invalid stream encountered!") files

/-- Opening a stream for appending creates the file when it does not exist. -/
def openForAppend (name : FileName) : FileM Unit := fun files =>
  match files.read name with
  | some _ => .ok () files
  | none => .ok () (files.write name [])

/-- Append to a file through a stream that has been opened on it. -/
def appendFile (name : FileName) (bytes : List Byte) : FileM Unit := fun files =>
  match files.read name with
  | some contents => .ok () (files.write name (contents ++ bytes))
  | none => .ok () files

end ProjectDb
