import ProjectDb.StreamSerializer
import ProjectDb.HandOver

namespace ProjectDb

section Writing
variable {σ α : Type} (element : Serializable α) (tryBuildIndex : IndexBuilder σ α)

end Writing

section Streaming
open OStream
variable {σ α : Type} (element : Serializable α) (tryBuildIndex : IndexBuilder σ α)

section Flush
variable {blockSize : UInt32} {notOpen : Bool} {fates : List Fate} {s : SSTable} {name : FileName} {files : Files}

end Flush

end Streaming
end ProjectDb
