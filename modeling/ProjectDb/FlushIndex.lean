import ProjectDb.FlushStream
import ProjectDb.LogRuns
import ProjectDb.CompactionAnswers

namespace ProjectDb

open OStream

section Encoding

end Encoding

section Loop
variable {σ α : Type} (element : Serializable α) (tryBuildIndex : IndexBuilder σ α) {os after : OStream} {captured built : σ}

end Loop

section Flush
variable {blockSize : UInt32} {notOpen : Bool} {fates : List Fate} {s : SSTable} {name : FileName} {files : Files}
  {os after : OStream} {built : SSTableIndex}

end Flush
end ProjectDb
