import BTron.Lib.CString
import BTron.Types
import Mathlib.Logic.Function.Basic

namespace BTron.FsRecord

open Lib

def maxFsFiles : Nat := 16
def maxRecsPerFile : Int := 8
def maxRecordSize : Int := 4096
def maxOpenRecs : Nat := 16

def F_WRITE : Nat := 0x0002
def F_CREATE : Nat := 0x0008

def REC_POS_SET : Int := 0
def REC_POS_CUR : Int := 1
def REC_POS_END : Int := 2

-- BTRON_REC
structure Rec where
  data : Memory
  size : Int
  inUse : Bool

-- BTRON_FILE. The path is the string in the char array; strncpy fills the rest with NULs.
structure File where
  path : List UB
  mode : Nat
  isOpen : Bool
  doesExist : Bool
  records : Nat → Rec
  numRecords : Int

-- BTRON_OPEN_REC
structure OpenRec where
  fd : Int
  recIdx : Int
  mode : Nat
  offset : Int
  isOpen : Bool

-- g_files, g_open_recs and g_fs_init.
structure Fs where
  files : Nat → File
  openRecs : Nat → OpenRec
  init : Bool

def Rec.zero : Rec := ⟨fun _ => 0, 0, false⟩
def File.zero : File := ⟨[], 0, false, false, fun _ => .zero, 0⟩
def OpenRec.zero : OpenRec := ⟨0, 0, 0, 0, false⟩

-- The tables before the first call.
def Fs.start : Fs := ⟨fun _ => .zero, fun _ => .zero, false⟩

def Fs.modifyFile (s : Fs) (i : Nat) (g : File → File) : Fs :=
  { s with files := Function.update s.files i (g (s.files i)) }

def Fs.modifyRec (s : Fs) (i r : Nat) (g : Rec → Rec) : Fs :=
  s.modifyFile i fun f => { f with records := Function.update f.records r (g (f.records r)) }

def Fs.modifyOpenRec (s : Fs) (h : Nat) (g : OpenRec → OpenRec) : Fs :=
  { s with openRecs := Function.update s.openRecs h (g (s.openRecs h)) }

-- `/sys/startup.tad`
def startupPath : List UB :=
  [0x2f, 0x73, 0x79, 0x73, 0x2f, 0x73, 0x74, 0x61, 0x72, 0x74, 0x75, 0x70, 0x2e, 0x74, 0x61, 0x64]

-- `TRON_AUTORUN`
def startupText : List UB :=
  [0x54, 0x52, 0x4f, 0x4e, 0x5f, 0x41, 0x55, 0x54, 0x4f, 0x52, 0x55, 0x4e]

-- g_files[0] as fs_init_once leaves it.
def startupFile : File :=
  { File.zero with
      doesExist := true
      path := strncpy startupPath 63
      numRecords := 1
      records := Function.update File.zero.records 0 ⟨fun k => startupText.getD k 0, 12, true⟩ }

def fsInitOnce (s : Fs) : Fs :=
  if s.init then s
  else ⟨Function.update (fun _ => .zero) 0 startupFile, fun _ => .zero, true⟩

-- The first existing file with the path; strcmp compares up to the NUL.
def findPath (s : Fs) (path : List UB) : Option Nat :=
  (List.range maxFsFiles).find? fun i => (s.files i).doesExist && (s.files i).path == cstr path

def findFree (s : Fs) : Option Nat :=
  (List.range maxFsFiles).find? fun i => !(s.files i).doesExist

def findFreeRec (s : Fs) : Option Nat :=
  (List.range maxOpenRecs).find? fun i => !(s.openRecs i).isOpen

-- A NULL path is `none`.
def opnFil (s : Fs) (path : Option (List UB)) (mode : Nat) : Fs × ER :=
  match path with
  | none => (s, ER_PAR)
  | some path =>
    let s := fsInitOnce s
    match findPath s path with
    | some i => (s.modifyFile i fun f => { f with isOpen := true, mode := mode }, i + 1)
    | none =>
      if mode &&& F_CREATE = 0 then (s, ER_NOEXS)
      else
        match findFree s with
        | none => (s, ER_NOSPC)
        | some i =>
          (s.modifyFile i fun f =>
            { f with
                doesExist := true
                isOpen := true
                mode := mode
                numRecords := 0
                path := strncpy path 63 }, i + 1)

def badFd (fd : Int) : Prop := fd ≤ 0 ∨ fd > maxFsFiles

def badRecIdx (recIdx : Int) : Prop := recIdx < 0 ∨ recIdx ≥ maxRecsPerFile

def badRecId (recId : Int) : Prop := recId ≤ 0 ∨ recId > maxOpenRecs

instance (fd : Int) : Decidable (badFd fd) := inferInstanceAs (Decidable (_ ∨ _))
instance (recIdx : Int) : Decidable (badRecIdx recIdx) := inferInstanceAs (Decidable (_ ∨ _))
instance (recId : Int) : Decidable (badRecId recId) := inferInstanceAs (Decidable (_ ∨ _))

-- The array index of a file descriptor or of a record handle.
def slot (id : Int) : Nat := (id - 1).toNat

def clsFil (s : Fs) (fd : Int) : Fs × ER :=
  if badFd fd then (s, ER_FD)
  else
    let s := fsInitOnce s
    if !(s.files (slot fd)).doesExist || !(s.files (slot fd)).isOpen then (s, ER_FD)
    else (s.modifyFile (slot fd) fun f => { f with isOpen := false }, E_OK)

def creFil (s : Fs) (path : Option (List UB)) (mode : Nat) : Fs × ER :=
  opnFil s path (mode ||| F_CREATE)

def delFil (s : Fs) (path : Option (List UB)) : Fs × ER :=
  match path with
  | none => (s, ER_PAR)
  | some path =>
    let s := fsInitOnce s
    match findPath s path with
    | some i => (s.modifyFile i fun f => { f with doesExist := false, isOpen := false }, E_OK)
    | none => (s, ER_NOEXS)

def chgFil (s : Fs) (fd : Int) (mode : Nat) : Fs × ER :=
  if badFd fd then (s, ER_FD)
  else (s.modifyFile (slot fd) fun f => { f with mode := mode }, E_OK)

def movFil (s : Fs) (srcPath dstPath : Option (List UB)) : Fs × ER :=
  match srcPath, dstPath with
  | some src, some dst =>
    let s := fsInitOnce s
    match findPath s src with
    | some i => (s.modifyFile i fun f => { f with path := strncpy dst 63 }, E_OK)
    | none => (s, ER_NOEXS)
  | _, _ => (s, ER_PAR)

-- A record slot that is not in use is set up first, whatever the mode.
def autoCreate (s : Fs) (fd recIdx : Int) : Fs :=
  if ((s.files (slot fd)).records recIdx.toNat).inUse then s
  else
    (s.modifyRec (slot fd) recIdx.toNat fun r => { r with inUse := true, size := 0 }).modifyFile
      (slot fd) fun f =>
        { f with numRecords := if recIdx ≥ f.numRecords then recIdx + 1 else f.numRecords }

def opnRec (s : Fs) (fd recIdx : Int) (mode : Nat) : Fs × ER :=
  if badFd fd then (s, ER_FD)
  else if badRecIdx recIdx then (s, ER_PAR)
  else
    let s := fsInitOnce s
    if !(s.files (slot fd)).doesExist then (s, ER_FD)
    else
      let s := autoCreate s fd recIdx
      match findFreeRec s with
      | some i => (s.modifyOpenRec i fun _ => ⟨fd, recIdx, mode, 0, true⟩, i + 1)
      | none => (s, ER_NOSPC)

def clsRec (s : Fs) (recId : Int) : Fs × ER :=
  if badRecId recId then (s, ER_ID)
  else (s.modifyOpenRec (slot recId) fun o => { o with isOpen := false }, E_OK)

-- The record an open handle is for.
def OpenRec.target (o : OpenRec) (s : Fs) : Rec := (s.files (slot o.fd)).records o.recIdx.toNat

-- `(sz < room) ? sz : room`
def moved (sz room : Int) : Int := if sz < room then sz else room

-- `buf` says that the buffer is not NULL; the bytes are what is copied into it.
def rdRec (s : Fs) (recId : Int) (buf : Bool) (sz : Int) : Fs × ER × List UB :=
  if !buf ∨ sz < 0 then (s, ER_PAR, [])
  else if badRecId recId then (s, ER_ID, [])
  else
    let o := s.openRecs (slot recId)
    if !o.isOpen then (s, ER_ID, [])
    else
      let avail := (o.target s).size - o.offset
      let toRead := moved sz avail
      if toRead > 0 then
        (s.modifyOpenRec (slot recId) fun o => { o with offset := o.offset + toRead }, E_OK,
          (List.range toRead.toNat).map fun j => (o.target s).data (o.offset.toNat + j))
      else (s, E_OK, [])

-- `memcpy(data + offset, buf, n)`
def overwrite (data : Memory) (offset n : Nat) (buf : Memory) : Memory :=
  fun k => if offset ≤ k ∧ k < offset + n then buf (k - offset) else data k

def wrRec (s : Fs) (recId : Int) (buf : Option Memory) (sz : Int) : Fs × ER :=
  match buf with
  | none => (s, ER_PAR)
  | some buf =>
    if sz < 0 then (s, ER_PAR)
    else if badRecId recId then (s, ER_ID)
    else
      let o := s.openRecs (slot recId)
      if !o.isOpen then (s, ER_ID)
      else
        let space := maxRecordSize - o.offset
        let toWrite := moved sz space
        if toWrite > 0 then
          ((s.modifyRec (slot o.fd) o.recIdx.toNat fun r =>
              { r with
                  data := overwrite r.data o.offset.toNat toWrite.toNat buf
                  size := if o.offset + toWrite > r.size then o.offset + toWrite else r.size }
            ).modifyOpenRec (slot recId) fun o => { o with offset := o.offset + toWrite }, E_OK)
        else (s, E_OK)

-- Each of the three calls takes the lock on its own.
def insRec (s : Fs) (fd recIdx : Int) (buf : Option Memory) (sz : Int) : Fs × ER :=
  let (s, rid) := opnRec s fd recIdx F_WRITE
  if rid ≤ 0 then (s, rid)
  else
    let (s, er) := wrRec s rid buf sz
    let (s, _) := clsRec s rid
    (s, er)

def delRec (s : Fs) (fd recIdx : Int) : Fs × ER :=
  if badFd fd then (s, ER_FD)
  else if badRecIdx recIdx then (s, ER_PAR)
  else (s.modifyRec (slot fd) recIdx.toNat fun r => { r with inUse := false, size := 0 }, E_OK)

-- The offset a seek asks for, in W arithmetic.
def seek (o : OpenRec) (size offset origin : Int) : Int :=
  if origin = REC_POS_SET then offset
  else if origin = REC_POS_CUR then Int.bmod (o.offset + offset) 4294967296
  else if origin = REC_POS_END then Int.bmod (size + offset) 4294967296
  else o.offset

def clamp (size pos : Int) : Int :=
  let pos := if pos < 0 then 0 else pos
  if pos > size then size else pos

def posRec (s : Fs) (recId offset origin : Int) : Fs × ER :=
  if badRecId recId then (s, ER_ID)
  else
    let o := s.openRecs (slot recId)
    if !o.isOpen then (s, ER_ID)
    else
      let size := (o.target s).size
      let pos := clamp size (seek o size offset origin)
      (s.modifyOpenRec (slot recId) fun o => { o with offset := pos }, E_OK)

def trnRec (s : Fs) (recId sz : Int) : Fs × ER :=
  if badRecId recId then (s, ER_ID)
  else
    let o := s.openRecs (slot recId)
    if !o.isOpen then (s, ER_ID)
    else if 0 ≤ sz ∧ sz ≤ maxRecordSize then
      (s.modifyRec (slot o.fd) o.recIdx.toNat fun r => { r with size := sz }, E_OK)
    else (s, E_OK)

-- What runs under the lock in one piece.
inductive Op
  | opnFil (path : Option (List UB)) (mode : Nat)
  | creFil (path : Option (List UB)) (mode : Nat)
  | clsFil (fd : Int)
  | delFil (path : Option (List UB))
  | chgFil (fd : Int) (mode : Nat)
  | movFil (srcPath dstPath : Option (List UB))
  | opnRec (fd recIdx : Int) (mode : Nat)
  | clsRec (recId : Int)
  | rdRec (recId : Int) (buf : Bool) (sz : Int)
  | wrRec (recId : Int) (buf : Option Memory) (sz : Int)
  | delRec (fd recIdx : Int)
  | posRec (recId offset origin : Int)
  | trnRec (recId sz : Int)

def Op.exec (s : Fs) : Op → Fs × ER
  | .opnFil path mode => FsRecord.opnFil s path mode
  | .creFil path mode => FsRecord.creFil s path mode
  | .clsFil fd => FsRecord.clsFil s fd
  | .delFil path => FsRecord.delFil s path
  | .chgFil fd mode => FsRecord.chgFil s fd mode
  | .movFil src dst => FsRecord.movFil s src dst
  | .opnRec fd recIdx mode => FsRecord.opnRec s fd recIdx mode
  | .clsRec recId => FsRecord.clsRec s recId
  | .rdRec recId buf sz => ((FsRecord.rdRec s recId buf sz).1, (FsRecord.rdRec s recId buf sz).2.1)
  | .wrRec recId buf sz => FsRecord.wrRec s recId buf sz
  | .delRec fd recIdx => FsRecord.delRec s fd recIdx
  | .posRec recId offset origin => FsRecord.posRec s recId offset origin
  | .trnRec recId sz => FsRecord.trnRec s recId sz

def Step (s : Fs) (op : Op) (s' : Fs) : Prop := (op.exec s).1 = s'

def runOps (s : Fs) (ops : List Op) : Fs := ops.foldl (fun s op => (op.exec s).1) s

end BTron.FsRecord
