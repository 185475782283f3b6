import Straks.Construction.Storage.BlockFiles
import Straks.Library.Extents
import Straks.Library.Run

namespace Straks.Storage

open Extents Run Success List CBlockFileInfo BlockFiles

namespace BlockFiles

variable {files : BlockFiles}

theorem getD_set_resizeFor (vinfoBlockFile : List CBlockFileInfo) (nFile : Nat) (info : CBlockFileInfo)
    (other : Nat) : ((resizeFor vinfoBlockFile nFile).set nFile info).getD other CBlockFileInfo.null =
      if other = nFile then info else vinfoBlockFile.getD other CBlockFileInfo.null := by
  have long : nFile < (resizeFor vinfoBlockFile nFile).length := by
    rw [resizeFor, length_append, length_replicate]
    omega
  rw [getD_eq_getElem?_getD, getD_eq_getElem?_getD]
  by_cases same : other = nFile
  · subst same
    rw [if_pos rfl, getElem?_set_self long, Option.getD_some]
  · rw [if_neg same, getElem?_set_ne (Ne.symm same), resizeFor]
    by_cases inside : other < vinfoBlockFile.length
    · rw [getElem?_append_left inside]
    · rw [getElem?_append_right (by omega), getElem?_replicate, getElem?_eq_none (by omega)]
      split
      · rfl
      · rfl

/-- The allocation of disk space changes no summary. -/
theorem allocateChunks_files (env : DiskEnv) (nChunkSize nPos nNewSize : UInt32) :
    (allocateChunks env files nChunkSize nPos nNewSize).2.vinfoBlockFile = files.vinfoBlockFile ∧
      (allocateChunks env files nChunkSize nPos nNewSize).2.nLastBlockFile = files.nLastBlockFile := by
  rw [allocateChunks]
  split
  · exact ⟨rfl, rfl⟩
  · exact ⟨rfl, rfl⟩

end BlockFiles

variable {nAddSize : UInt32} {info : CBlockFileInfo}

/-- The file found has room, as far as 32 bits tell. -/
theorem findFile_room {rest : List CBlockFileInfo} {start nFile : Nat}
    (found : findFile nAddSize rest start = .ok nFile) :
    start ≤ nFile ∧ (rest.getD (nFile - start) CBlockFileInfo.null).nSize + nAddSize < maxBlockFileSize := by
  induction rest generalizing start with
  | nil =>
    rw [findFile] at found
    split_ifs at found with room
    cases found
    exact ⟨le_rfl, by simpa [CBlockFileInfo.null] using room⟩
  | cons info others ih =>
    rw [findFile] at found
    split at found
    · obtain ⟨later, room⟩ := ih found
      rw [show nFile - start = nFile - (start + 1) + 1 by omega]
      exact ⟨by omega, room⟩
    · rename_i room
      cases found
      exact ⟨le_rfl, by simpa using room⟩

/-- A block gets the end of a file; only its summary changes. -/
theorem findBlockPos_ok {env : DiskEnv} {files later : BlockFiles} {nHeight : UInt32} {nTime : UInt64} {fSpace : Bool}
    {pos : CDiskBlockPos} (success : findBlockPos env files nAddSize nHeight nTime = .ok (fSpace, pos, later)) :
    files.nLastBlockFile ≤ pos.nFile ∧ later.nLastBlockFile = pos.nFile ∧
      pos.nPos = (files.info pos.nFile).nSize ∧ pos.nPos + nAddSize < maxBlockFileSize ∧
      ∀ nFile, later.info nFile =
        if nFile = pos.nFile then
          { (files.info pos.nFile).addBlock nHeight nTime with nSize := pos.nPos + nAddSize }
        else files.info nFile := by
  obtain ⟨nFile, found, placed⟩ := bind_eq_ok.mp success
  obtain ⟨behind, room⟩ := findFile_room found
  rw [getD_eq_getElem?_getD, getElem?_drop, Nat.add_sub_cancel' behind] at room
  have result := Except.ok.inj placed
  obtain ⟨-, rfl, rfl⟩ := result
  refine ⟨behind, (allocateChunks_files _ _ _ _).2, rfl, room, fun other => ?_⟩
  rw [BlockFiles.info, (allocateChunks_files _ _ _ _).1, getD_set_resizeFor]
  rfl

theorem findUndoPos_ok {env : DiskEnv} {files later : BlockFiles} {nFile : Nat} {fSpace : Bool} {pos : CDiskBlockPos}
    (success : findUndoPos env files nFile nAddSize = .ok (fSpace, pos, later)) :
    nFile < files.vinfoBlockFile.length ∧ pos = ⟨nFile, (files.info nFile).nUndoSize⟩ ∧
      later.nLastBlockFile = files.nLastBlockFile ∧
      ∀ other, later.info other =
        if other = nFile then { files.info nFile with nUndoSize := pos.nPos + nAddSize } else files.info other := by
  rw [findUndoPos] at success
  split_ifs at success with inside
  have result := Except.ok.inj success
  obtain ⟨-, rfl, rfl⟩ := result
  refine ⟨inside, rfl, (allocateChunks_files _ _ _ _).2, fun other => ?_⟩
  rw [BlockFiles.info, (allocateChunks_files _ _ _ _).1, getD_eq_getElem?_getD]
  by_cases same : other = nFile
  · subst same
    rw [if_pos rfl, getElem?_set_self inside, Option.getD_some]
  · rw [if_neg same, getElem?_set_ne (Ne.symm same)]
    rfl

/-- A call, with what the node knows about the disk. -/
inductive FileCall where
  | block (env : DiskEnv) (nAddSize nHeight : UInt32) (nTime : UInt64)
  | undo (env : DiskEnv) (nFile : Nat) (nAddSize : UInt32)

/-- Where a block was placed. -/
structure Placement where
  pos : CDiskBlockPos
  nAddSize : UInt32
  nHeight : UInt32
  nTime : UInt64
  deriving DecidableEq, Repr

def Placement.extent (placement : Placement) : Extent := ⟨placement.pos.nPos.toNat, placement.nAddSize.toNat⟩

/-- The block files with all positions handed out. -/
structure FileLog where
  files : BlockFiles
  blocks : List Placement
  undos : List (CDiskBlockPos × UInt32)

namespace FileLog

def empty : FileLog := ⟨BlockFiles.empty, [], []⟩

variable (log : FileLog)

def step : FileCall → Except StorageError FileLog
  | .block env nAddSize nHeight nTime => do
    let (_, pos, files) ← findBlockPos env log.files nAddSize nHeight nTime
    return { log with files := files, blocks := log.blocks ++ [⟨pos, nAddSize, nHeight, nTime⟩] }
  | .undo env nFile nAddSize => do
    let (_, pos, files) ← findUndoPos env log.files nFile nAddSize
    return { log with files := files, undos := log.undos ++ [(pos, nAddSize)] }

/-- The blocks of a file. -/
def blocksIn (nFile : Nat) : List Placement := log.blocks.filter fun block => block.pos.nFile = nFile

/-- The undo data of a file. -/
def undosIn (nFile : Nat) : List Extent :=
  (log.undos.filter fun undo => undo.1.nFile = nFile).map fun undo => ⟨undo.1.nPos.toNat, undo.2.toNat⟩

end FileLog

/-- The heights and times of a file lie within its summary. -/
structure Bounded (info : CBlockFileInfo) (block : Placement) : Prop where
  heightFirst : info.nHeightFirst ≤ block.nHeight
  heightLast : block.nHeight ≤ info.nHeightLast
  timeFirst : info.nTimeFirst ≤ block.nTime
  timeLast : block.nTime ≤ info.nTimeLast

/-- The summary of a file is right. -/
structure Summarises (info : CBlockFileInfo) (placed : List Placement) (undone : List Extent) : Prop where
  blocks : Allotted info.nSize.toNat (placed.map Placement.extent)
  undos : Allotted info.nUndoSize.toNat undone
  bounded : ∀ block ∈ placed, Bounded info block

/-- What carries the summary further: the file is not full, no count has wrapped. -/
structure FileOk (info : CBlockFileInfo) (placed : List Placement) (undone : List Extent) : Prop extends
    Summarises info placed undone where
  size : info.nSize < maxBlockFileSize
  count : info.nBlocks.toNat = placed.length
  atLeast : placed.length ≤ info.nSize.toNat

theorem FileOk.null : FileOk CBlockFileInfo.null [] [] where
  blocks := Allotted.nil _
  undos := Allotted.nil _
  bounded := by simp
  size := by decide
  count := rfl
  atLeast := le_rfl

theorem addBlock_bounded (info : CBlockFileInfo) (nSize : UInt32) (block : Placement) :
    Bounded { info.addBlock block.nHeight block.nTime with nSize := nSize } block := by
  constructor
  · simp only [addBlock]
    split
    · exact UInt32.le_refl _
    · rename_i not
      exact UInt32.not_lt.mp fun less => not (.inr less)
  · simp only [addBlock]
    split
    · exact UInt32.le_refl _
    · rename_i not
      exact UInt32.not_lt.mp not
  · simp only [addBlock]
    split
    · exact UInt64.le_refl _
    · rename_i not
      exact UInt64.not_lt.mp fun less => not (.inr less)
  · simp only [addBlock]
    split
    · exact UInt64.le_refl _
    · rename_i not
      exact UInt64.not_lt.mp not

/-- A file that is not new keeps the bounds of its blocks. -/
theorem Bounded.addBlock {block : Placement} (bounded : Bounded info block) (notNew : info.nBlocks ≠ 0)
    (nSize nHeight : UInt32) (nTime : UInt64) :
    Bounded { info.addBlock nHeight nTime with nSize := nSize } block := by
  constructor
  · simp only [CBlockFileInfo.addBlock]
    split
    · rename_i lower
      exact UInt32.le_trans (UInt32.le_of_lt (lower.resolve_left notNew)) bounded.heightFirst
    · exact bounded.heightFirst
  · simp only [CBlockFileInfo.addBlock]
    split
    · rename_i higher
      exact UInt32.le_trans bounded.heightLast (UInt32.le_of_lt higher)
    · exact bounded.heightLast
  · simp only [CBlockFileInfo.addBlock]
    split
    · rename_i lower
      exact UInt64.le_trans (UInt64.le_of_lt (lower.resolve_left notNew)) bounded.timeFirst
    · exact bounded.timeFirst
  · simp only [CBlockFileInfo.addBlock]
    split
    · rename_i higher
      exact UInt64.le_trans bounded.timeLast (UInt64.le_of_lt higher)
    · exact bounded.timeLast

/-- The sizes of a call do not overflow: a block is not empty and leaves 32 bits for a full file, and undo data fits
behind its file's. -/
def Fits (log : FileLog) : FileCall → Prop
  | .block _ nAddSize _ _ => 0 < nAddSize ∧ nAddSize.toNat + maxBlockFileSize.toNat ≤ 2 ^ 32
  | .undo _ nFile nAddSize => (log.files.info nFile).nUndoSize.toNat + nAddSize.toNat < 2 ^ 32

/-- Every file of the log is in order. -/
def LogOk (log : FileLog) : Prop := ∀ nFile, FileOk (log.files.info nFile) (log.blocksIn nFile) (log.undosIn nFile)

section

variable {placed : List Placement} {undone : List Extent} (ok : FileOk info placed undone)
include ok

theorem FileOk.place {block : Placement} (start : block.pos.nPos = info.nSize)
    (room : info.nSize + block.nAddSize < maxBlockFileSize) (positive : 0 < block.nAddSize)
    (small : block.nAddSize.toNat + maxBlockFileSize.toNat ≤ 2 ^ 32) :
    FileOk { info.addBlock block.nHeight block.nTime with nSize := info.nSize + block.nAddSize }
      (placed ++ [block]) undone := by
  have notFull := UInt32.lt_iff_toNat_lt.mp ok.size
  have sum : (info.nSize + block.nAddSize).toNat = info.nSize.toNat + block.nAddSize.toNat := by
    rw [UInt32.toNat_add]
    exact Nat.mod_eq_of_lt (by omega)
  have more := UInt32.lt_iff_toNat_lt.mp positive
  have count : (info.nBlocks + 1).toNat = placed.length + 1 := by
    have few := ok.atLeast
    rw [UInt32.toNat_add, ok.count, UInt32.toNat_one]
    exact Nat.mod_eq_of_lt (by omega)
  have last : block.extent = ⟨info.nSize.toNat, block.nAddSize.toNat⟩ := by rw [Placement.extent, start]
  constructor
  · constructor
    · rw [map_append, map_singleton, last, sum]
      exact ok.blocks.push _
    · exact ok.undos
    · intro other member
      rcases mem_append.mp member with old | new
      · apply (ok.bounded other old).addBlock
        intro zero
        have length := ok.count
        rw [zero] at length
        rw [length_eq_zero_iff.mp length.symm] at old
        cases old
      · rw [mem_singleton.mp new]
        exact addBlock_bounded info _ block
  · exact room
  · rw [length_append]
    exact count
  · have few := ok.atLeast
    rw [length_append, length_singleton, sum]
    omega

theorem FileOk.undo (fits : info.nUndoSize.toNat + nAddSize.toNat < 2 ^ 32) :
    FileOk { info with nUndoSize := info.nUndoSize + nAddSize } placed
      (undone ++ [⟨info.nUndoSize.toNat, nAddSize.toNat⟩]) := by
  have sum : (info.nUndoSize + nAddSize).toNat = info.nUndoSize.toNat + nAddSize.toNat := by
    exact Nat.mod_eq_of_lt fits
  have undos := ok.undos.push nAddSize.toNat
  rw [← sum] at undos
  have bounded : ∀ block ∈ placed, Bounded { info with nUndoSize := info.nUndoSize + nAddSize } block :=
    fun block member => ⟨(ok.bounded block member).heightFirst, (ok.bounded block member).heightLast,
      (ok.bounded block member).timeFirst, (ok.bounded block member).timeLast⟩
  exact ⟨⟨ok.blocks, undos, bounded⟩, ok.size, ok.count, ok.atLeast⟩

end

/-- A call whose sizes fit keeps every file in order. -/
theorem LogOk.step {log later : FileLog} {call : FileCall} (ok : LogOk log) (fits : Fits log call)
    (success : log.step call = .ok later) : LogOk later := by
  cases call with
  | block env nAddSize nHeight nTime =>
    obtain ⟨⟨fSpace, pos, files⟩, found, result⟩ := bind_eq_ok.mp success
    cases result
    obtain ⟨_, _, start, room, infos⟩ := findBlockPos_ok found
    intro nFile
    have blocks : FileLog.blocksIn ⟨files, log.blocks ++ [⟨pos, nAddSize, nHeight, nTime⟩], log.undos⟩ nFile =
        log.blocksIn nFile ++ if nFile = pos.nFile then [⟨pos, nAddSize, nHeight, nTime⟩] else [] := by
      rw [FileLog.blocksIn, FileLog.blocksIn]
      by_cases same : nFile = pos.nFile
      · simp [same]
      · simp [same, Ne.symm same]
    rw [blocks]
    change FileOk (files.info nFile) _ (log.undosIn nFile)
    rw [infos]
    by_cases same : nFile = pos.nFile
    · rw [if_pos same, if_pos same, same]
      rw [start] at room ⊢
      exact @FileOk.place _ _ _ (ok pos.nFile) ⟨pos, nAddSize, nHeight, nTime⟩ start room fits.1 fits.2
    · rw [if_neg same, if_neg same, append_nil]
      exact ok nFile
  | undo env file nAddSize =>
    obtain ⟨⟨fSpace, pos, files⟩, found, result⟩ := bind_eq_ok.mp success
    cases result
    obtain ⟨_, rfl, _, infos⟩ := findUndoPos_ok found
    intro nFile
    have undos : FileLog.undosIn ⟨files, log.blocks, log.undos ++
          [(⟨file, (log.files.info file).nUndoSize⟩, nAddSize)]⟩ nFile =
        log.undosIn nFile ++
          if nFile = file then [⟨(log.files.info file).nUndoSize.toNat, nAddSize.toNat⟩] else [] := by
      rw [FileLog.undosIn, FileLog.undosIn]
      by_cases same : nFile = file
      · simp [same]
      · simp [same, Ne.symm same]
    rw [undos]
    change FileOk (files.info nFile) (log.blocksIn nFile) _
    rw [infos]
    by_cases same : nFile = file
    · rw [if_pos same, if_pos same, same]
      exact (ok file).undo fits
    · rw [if_neg same, if_neg same, append_nil]
      exact ok nFile

theorem LogOk.empty : LogOk FileLog.empty := fun _ => FileOk.null

/-- As long as the sizes fit, the parts of each file that were handed out share no byte and lie within the recorded
size, and the recorded heights and times bound those of the blocks. -/
theorem blockFiles_summarised (calls : List FileCall) (fits : Along FileLog.step Fits FileLog.empty calls)
    (log : FileLog) (ran : runUntil FileLog.step FileLog.empty calls = .ok log) (nFile : Nat) :
    Summarises (log.files.info nFile) (log.blocksIn nFile) (log.undosIn nFile) := by
  have ok : LogOk log := runUntil_ensures (fun _ _ ok fits _ success => ok.step fits success) LogOk.empty fits ran
  exact (ok nFile).toSummarises

/-- Calls of a node without pruning and with enough disk space. -/
def plainDisk : DiskEnv := ⟨false, fun _ => true⟩

theorem blockFiles_summarised_three : ∃ log, runUntil FileLog.step FileLog.empty
        [.block plainDisk 300 5 50, .undo plainDisk 0 40, .block plainDisk 200 3 60] = .ok log ∧
      log.files.info 0 = ⟨2, 500, 40, 3, 5, 50, 60⟩ ∧
      Summarises (log.files.info 0) [⟨⟨0, 0⟩, 300, 5, 50⟩, ⟨⟨0, 300⟩, 200, 3, 60⟩] [⟨0, 40⟩] := by
  obtain ⟨log, ran, infos, blocks, undos⟩ : ∃ log, runUntil FileLog.step FileLog.empty
      [.block plainDisk 300 5 50, .undo plainDisk 0 40, .block plainDisk 200 3 60] = .ok log ∧
      log.files.info 0 = ⟨2, 500, 40, 3, 5, 50, 60⟩ ∧
      log.blocksIn 0 = [⟨⟨0, 0⟩, 300, 5, 50⟩, ⟨⟨0, 300⟩, 200, 3, 60⟩] ∧ log.undosIn 0 = [⟨0, 40⟩] :=
    ⟨_, rfl, rfl, rfl, rfl⟩
  have fits : Along FileLog.step Fits FileLog.empty
      [.block plainDisk 300 5 50, .undo plainDisk 0 40, .block plainDisk 200 3 60] := by
    refine ⟨⟨by decide, by decide⟩, fun first placed => ⟨?_, fun second _ => ⟨⟨by decide, by decide⟩, ?_⟩⟩⟩
    · cases placed
      exact (by decide : 0 + 40 < 2 ^ 32)
    · exact fun _ _ => trivial
  have summary := blockFiles_summarised _ fits log ran 0
  rw [blocks, undos] at summary
  exact ⟨log, ran, infos, summary⟩

/-- A block wraps the size of its file, and the next block gets taken bytes. -/
theorem blockFiles_wrapped : ∃ log, runUntil FileLog.step FileLog.empty
        [.block plainDisk 8 1 10, .block plainDisk 0xfffffff8 2 20, .block plainDisk 8 3 30] = .ok log ∧
      log.blocksIn 0 = [⟨⟨0, 0⟩, 8, 1, 10⟩, ⟨⟨0, 8⟩, 0xfffffff8, 2, 20⟩, ⟨⟨0, 0⟩, 8, 3, 30⟩] ∧
      ¬ Summarises (log.files.info 0) (log.blocksIn 0) (log.undosIn 0) := by
  obtain ⟨log, ran, infos, blocks⟩ : ∃ log, runUntil FileLog.step FileLog.empty
      [.block plainDisk 8 1 10, .block plainDisk 0xfffffff8 2 20, .block plainDisk 8 3 30] = .ok log ∧
      log.files.info 0 = ⟨3, 8, 0, 1, 3, 10, 30⟩ ∧
      log.blocksIn 0 = [⟨⟨0, 0⟩, 8, 1, 10⟩, ⟨⟨0, 8⟩, 0xfffffff8, 2, 20⟩, ⟨⟨0, 0⟩, 8, 3, 30⟩] := ⟨_, rfl, rfl, rfl⟩
  refine ⟨log, ran, blocks, fun summary => ?_⟩
  rw [blocks, infos] at summary
  have inside := summary.blocks.inside ⟨8, 0xfffffff8⟩ (by decide)
  exact absurd inside (by decide)

end Straks.Storage
