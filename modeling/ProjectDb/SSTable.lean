import ProjectDb.IndexedSerializer
import ProjectDb.FileName

namespace ProjectDb

structure SSTable where
  metaData : SSTableMetaData
  table : Table
  deriving DecidableEq

/-- The key and start position of some entries of an SSTable file, always the
first and the last one, and the stream that seeking keeps open. -/
structure SSTableIndex where
  ssTableFileName : FileName
  index : SortedMap Key Int (· < ·)
  eofPos : Int
  ifs : Option IStream
  deriving DecidableEq

namespace SSTableIndex

def new : SSTableIndex := ⟨⟨0, []⟩, .empty, 0, none⟩

def addIndex (index : SSTableIndex) (key : Key) (pos : Int) : SSTableIndex :=
  { index with index := index.index.insert key pos }

/-- The search of `getPotentialBlockPos` from one index entry on; `prev` is
the position of the entry before. -/
def potentialBlockFrom (key : Key) (eofPos : Int) : Option Int → List (Key × Int) → Option (Int × Int)
  | _, [] => none
  | prev, (k, pos) :: rest =>
    if key = k then some (pos, (rest.head?.map Prod.snd).getD eofPos)
    else if key < k then prev.map fun start => (start, pos)
    else potentialBlockFrom key eofPos (some pos) rest

def getPotentialBlockPos (index : SSTableIndex) (key : Key) : Option (Int × Int) :=
  potentialBlockFrom key index.eofPos none index.index.entries

/-- Open the kept stream at the first seek, under the name the index has then. -/
def openKept (keepSSTableFileOpen : Bool) (files : Files) (self : SSTableIndex) : SSTableIndex :=
  if keepSSTableFileOpen && self.ifs.isNone then
    { self with ifs := some (getFileStream files self.ssTableFileName) }
  else self

/-- Look a key up in the file, decoding only the block that may hold it. The
stream is the kept one or a fresh one. -/
def seek (keepSSTableFileOpen : Bool) (files : Files) (key : Key) : EStateM Exn SSTableIndex (Option Value) :=
  fun self =>
    let self := self.openKept keepSSTableFileOpen files
    match self.getPotentialBlockPos key with
    | none => .ok none self
    | some (startPos, endPos) =>
      let fresh := getFileStream files self.ssTableFileName
      if keepSSTableFileOpen then
        match deserializeRange startPos endPos (self.ifs.getD fresh) with
        | .ok partialSSTable is => .ok (partialSSTable.find? key) { self with ifs := some is }
        | .error e is => .error e { self with ifs := some is }
      else
        match deserializeRange startPos endPos fresh with
        | .ok partialSSTable _ => .ok (partialSSTable.find? key) self
        | .error e _ => .error e self

end SSTableIndex

/-- The lambda of `flushSSTable` and `loadSSTable`: an entry is indexed when it
is the first or last one, or the block has reached its size. -/
def tryBuildIndex (ssTableIndexBlockSizeInBytes : UInt32) : IndexBuilder SSTableIndex (Key × Value) :=
  fun index e pos currBlockSize isFirstOrLastEntry =>
    if !isFirstOrLastEntry && currBlockSize < (ssTableIndexBlockSizeInBytes.toNat : Int) then (false, index)
    else (true, index.addIndex e.1 pos)

/-- The scope of `flushSSTable` in which the table is written to the named file
and its index is built. -/
def writeSSTable (ssTableIndexBlockSizeInBytes : UInt32) (ssTable : SSTable) (fileName : FileName) :
    FileM SSTableIndex := do
  let ofs := Serializable.metaData.serialize ssTable.metaData
  let (ofs, rtn) :=
    serializeIndexed entryType (tryBuildIndex ssTableIndexBlockSizeInBytes) ssTable.table.entries ofs .new
  writeFile fileName ofs
  pure { rtn with eofPos := tellp ofs, ssTableFileName := fileName }

def flushSSTable (ssTableIndexBlockSizeInBytes : UInt32) (ssTable : SSTable) (fileName : FileName) :
    FileM SSTableIndex := do
  removeFilesWithExt .deprecated
  writeSSTable ssTableIndexBlockSizeInBytes ssTable fileName

/-- The lambda of `loadSSTable`, which builds no index when it is given none. -/
def tryBuildIndex? (ssTableIndexBlockSizeInBytes : UInt32) :
    IndexBuilder (Option SSTableIndex) (Key × Value) :=
  fun index e pos currBlockSize isFirstOrLastEntry =>
    match index with
    | none => (false, none)
    | some index =>
      let (added, index) := tryBuildIndex ssTableIndexBlockSizeInBytes index e pos currBlockSize isFirstOrLastEntry
      (added, some index)

def loadSSTableFrom (ssTableIndexBlockSizeInBytes : UInt32) (index : Option SSTableIndex) :
    Decoder Exn (SSTable × Option SSTableIndex) := do
  let metaData ← Serializable.metaData.deserialize
  let (table, index) ← deserializeIndexed (tryBuildIndex? ssTableIndexBlockSizeInBytes) index
  let ifs ← get
  pure (⟨metaData, table⟩, index.map fun index => { index with eofPos := ifs.tellg })

/-- Read a whole SSTable file, building the index when one is asked for. -/
def loadSSTable (ssTableIndexBlockSizeInBytes : UInt32) (ssTableFileName : FileName)
    (index : Option SSTableIndex) : FileM (SSTable × Option SSTableIndex) := fun files =>
  match loadSSTableFrom ssTableIndexBlockSizeInBytes index (getFileStream files ssTableFileName) with
  | .ok (ssTable, index) _ =>
    .ok (ssTable, index.map fun index => { index with ssTableFileName := ssTableFileName }) files
  | .error e _ => .error e files

end ProjectDb
