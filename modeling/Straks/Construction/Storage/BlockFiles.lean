import Straks.Construction.Primitives

namespace Straks.Storage

structure CBlockFileInfo where
  nBlocks : UInt32
  nSize : UInt32
  nUndoSize : UInt32
  nHeightFirst : UInt32
  nHeightLast : UInt32
  nTimeFirst : UInt64
  nTimeLast : UInt64
  deriving DecidableEq, Repr

namespace CBlockFileInfo

def null : CBlockFileInfo := ⟨0, 0, 0, 0, 0, 0, 0⟩

/-- Updates the statistics, but not the size. -/
def addBlock (info : CBlockFileInfo) (nHeightIn : UInt32) (nTimeIn : UInt64) : CBlockFileInfo :=
  { info with
    nHeightFirst := if info.nBlocks = 0 ∨ info.nHeightFirst > nHeightIn then nHeightIn else info.nHeightFirst
    nTimeFirst := if info.nBlocks = 0 ∨ info.nTimeFirst > nTimeIn then nTimeIn else info.nTimeFirst
    nBlocks := info.nBlocks + 1
    nHeightLast := if nHeightIn > info.nHeightLast then nHeightIn else info.nHeightLast
    nTimeLast := if nTimeIn > info.nTimeLast then nTimeIn else info.nTimeLast }

end CBlockFileInfo

def maxBlockFileSize : UInt32 := 0x8000000

def blockFileChunkSize : UInt32 := 0x1000000

def undoFileChunkSize : UInt32 := 0x100000

structure CDiskBlockPos where
  nFile : Nat
  nPos : UInt32
  deriving DecidableEq, Repr

/-- The ways in which the code does not return. -/
inductive StorageError where
  /-- A loop has no end. -/
  | diverges
  /-- A vector is accessed outside its bounds. -/
  | undefined
  | assertion
  deriving DecidableEq, Repr

structure BlockFiles where
  vinfoBlockFile : List CBlockFileInfo
  nLastBlockFile : Nat
  fCheckForPruning : Bool
  deriving DecidableEq, Repr

def BlockFiles.empty : BlockFiles := ⟨[], 0, false⟩

/-- The summary of a file; one past the end of the vector is new. -/
def BlockFiles.info (files : BlockFiles) (nFile : Nat) : CBlockFileInfo :=
  files.vinfoBlockFile.getD nFile CBlockFileInfo.null

structure DiskEnv where
  fPruneMode : Bool
  checkDiskSpace : UInt64 → Bool

/-- The vector of summaries with at least so many elements. -/
def resizeFor (vinfoBlockFile : List CBlockFileInfo) (nFile : Nat) : List CBlockFileInfo :=
  vinfoBlockFile ++ List.replicate (nFile + 1 - vinfoBlockFile.length) CBlockFileInfo.null

/-- The search for a file with room, over the summaries from a file on. Behind them every file is new, and if that has
no room, none has. -/
def findFile (nAddSize : UInt32) : List CBlockFileInfo → Nat → Except StorageError Nat
  | [], nFile => if nAddSize ≥ maxBlockFileSize then .error .diverges else .ok nFile
  | info :: rest, nFile =>
    if info.nSize + nAddSize ≥ maxBlockFileSize then findFile nAddSize rest (nFile + 1) else .ok nFile

def chunksOf (nChunkSize nSize : UInt32) : UInt32 := (nSize + nChunkSize - 1) / nChunkSize

variable (env : DiskEnv)

/-- Disk space comes in chunks; false when there is too little. -/
def allocateChunks (files : BlockFiles) (nChunkSize nPos nNewSize : UInt32) : Bool × BlockFiles :=
  let nOldChunks := chunksOf nChunkSize nPos
  let nNewChunks := chunksOf nChunkSize nNewSize
  if nNewChunks > nOldChunks then
    (env.checkDiskSpace (nNewChunks * nChunkSize - nPos).toUInt64,
      { files with fCheckForPruning := env.fPruneMode || files.fCheckForPruning })
  else (true, files)

/-- `FindBlockPos` for a block that is not on disk yet. -/
def findBlockPos (files : BlockFiles) (nAddSize nHeight : UInt32) (nTime : UInt64) :
    Except StorageError (Bool × CDiskBlockPos × BlockFiles) := do
  let nFile ← findFile nAddSize (files.vinfoBlockFile.drop files.nLastBlockFile) files.nLastBlockFile
  let info := files.info nFile
  let nSize := info.nSize + nAddSize
  let placed : BlockFiles :=
    { files with
      vinfoBlockFile := (resizeFor files.vinfoBlockFile nFile).set nFile
        { info.addBlock nHeight nTime with nSize := nSize }
      nLastBlockFile := nFile }
  let allocated := allocateChunks env placed blockFileChunkSize info.nSize nSize
  return (allocated.1, ⟨nFile, info.nSize⟩, allocated.2)

def findUndoPos (files : BlockFiles) (nFile : Nat) (nAddSize : UInt32) :
    Except StorageError (Bool × CDiskBlockPos × BlockFiles) :=
  if nFile < files.vinfoBlockFile.length then
    let info := files.info nFile
    let nNewSize := info.nUndoSize + nAddSize
    let placed : BlockFiles :=
      { files with vinfoBlockFile := files.vinfoBlockFile.set nFile { info with nUndoSize := nNewSize } }
    let allocated := allocateChunks env placed undoFileChunkSize info.nUndoSize nNewSize
    .ok (allocated.1, ⟨nFile, info.nUndoSize⟩, allocated.2)
  else .error .undefined

end Straks.Storage
