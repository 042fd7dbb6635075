import ProjectDb.Config
import ProjectDb.Table
import ProjectDb.Foundation.Numerals

namespace ProjectDb

open Numerals

/-- The settings that a configuration file can change. -/
structure Settings extends Config where
  dbFilePath : List Char
  deriving DecidableEq

def Settings.default : Settings := { Config.default with dbFilePath := "./projectdb".toList }

inductive ConfigExn
  | db (e : Exn)
  | conversion (e : ConversionError)
  deriving DecidableEq

abbrev ConfigM := EStateM ConfigExn Settings

/-- `setConfig(unsigned&, value)`. The number is truncated to its type. -/
def setConfigUnsigned (config : UInt32 → Settings → Settings) (value : List Char) : ConfigM Unit := fun settings =>
  match stoul value with
  | .ok n => .ok () (config (.ofNat n) settings)
  | .error e => .error (.conversion e) settings

/-- `setConfig(bool&, value)`. -/
def setConfigBool (config : Bool → Settings → Settings) (value : List Char) : ConfigM Unit := fun settings =>
  match stoi value with
  | .ok intVal =>
    if intVal ≠ 0 ∧ intVal ≠ 1 then .error (.db (.dbException ("Invalid bool value: " ++ String.ofList value))) settings
    else .ok () (config (intVal ≠ 0) settings)
  | .error e => .error (.conversion e) settings

def setConfigString (config : List Char → Settings → Settings) (value : List Char) : ConfigM Unit :=
  modify (config value)

def updateConfig (config value : List Char) : ConfigM Unit :=
  if config = "MEMTABLE_APPROXIMATE_MAX_SIZE_IN_BYTES".toList then
    setConfigUnsigned (fun n settings => { settings with memTableApproximateMaxSizeInBytes := n }) value
  else if config = "SSTABLE_APPROXIMATE_MAX_SIZE_IN_BYTES".toList then
    setConfigUnsigned (fun n settings => { settings with ssTableApproximateMaxSizeInBytes := n }) value
  else if config = "SSTABLE_INDEX_BLOCK_SIZE_IN_BYTES".toList then
    setConfigUnsigned (fun n settings => { settings with ssTableIndexBlockSizeInBytes := n }) value
  else if config = "NUM_SSTABLE_TO_COMPACT".toList then
    setConfigUnsigned (fun n settings => { settings with numSSTableToCompact := n }) value
  else if config = "KEEP_SSTABLE_FILE_OPEN".toList then
    setConfigBool (fun b settings => { settings with keepSSTableFileOpen := b }) value
  else if config = "DB_FILE_PATH".toList then
    setConfigString (fun path settings => { settings with dbFilePath := path }) value
  else throw (.db (.dbException ("Unsupported config found: " ++ String.ofList config)))

/-- The characters of `[A-Z_]`. -/
def isName (c : Char) : Bool := c.isUpper || c = '_'

/-- What `.` stands for in a regular expression: no line terminator. -/
def isPoint (c : Char) : Bool := c ≠ '\n' && c ≠ '\r'

/-- The two groups of `regex_search` for `^([A-Z_]+) (.+)`. -/
def searchConfig (line : List Char) : Option (List Char × List Char) :=
  match line.dropWhile isName with
  | ' ' :: rest =>
    if line.takeWhile isName ≠ [] ∧ rest.takeWhile isPoint ≠ [] then
      some (line.takeWhile isName, rest.takeWhile isPoint)
    else none
  | _ => none

/-- The handler of `parse` takes a `DbException` and nothing else. -/
def catchDbException (body : ConfigM Unit) : ConfigM Unit := fun settings =>
  match body settings with
  | .error (.db (.dbException _)) settings => .ok () settings
  | result => result

/-- The body of the loop of `parse`. -/
def parseLine (line : List Char) : ConfigM Unit :=
  match searchConfig line with
  | none => pure ()
  | some (config, value) => catchDbException (updateConfig config value)

/-- The lines that `getline` reads one after the other. -/
def getlines : List Char → List (List Char)
  | [] => []
  | c :: rest =>
    if c = '\n' then [] :: getlines rest
    else
      match getlines rest with
      | [] => [[c]]
      | line :: lines => (c :: line) :: lines

/-- `ConfigParser::parse` for a file with these contents, when there is one. -/
def ConfigParser.parse (configFilePath : String) (file : Option (List Char)) : ConfigM Unit :=
  match file with
  | none => throw (.db (.dbException ("Config file does not exist: " ++ configFilePath)))
  | some text => (getlines text).forM parseLine

end ProjectDb
