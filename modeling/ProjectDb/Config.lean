namespace ProjectDb

/-- The settings of `db_config`, less the path of the directory. -/
structure Config where
  memTableApproximateMaxSizeInBytes : UInt32
  ssTableApproximateMaxSizeInBytes : UInt32
  ssTableIndexBlockSizeInBytes : UInt32
  numSSTableToCompact : UInt32
  keepSSTableFileOpen : Bool
  deriving DecidableEq

/-- The values that the settings start with. -/
def Config.default : Config where
  memTableApproximateMaxSizeInBytes := 2 * 1024 * 1024
  ssTableApproximateMaxSizeInBytes := 4 * 1024 * 1024
  ssTableIndexBlockSizeInBytes := 2 * 1024
  numSSTableToCompact := 5
  keepSSTableFileOpen := false

end ProjectDb
