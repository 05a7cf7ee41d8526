import Xv6.Fs.System
import Xv6.Fs.View

/-! # `mkfs`: the initial file-system image

    `mkfs fs.img files...` lays out the disk (boot block, superblock, log,
    inode blocks, bitmap, data), makes the root directory with `.` and `..`,
    and for every file named on the command line allocates an inode,
    appends a directory entry to the root and appends the file's bytes.
    Blocks are handed out in order from `freeblock`; at the end the root's
    size is rounded to a block boundary and the first `freeblock` bits of
    the bitmap are set.

    A command-line argument is given by its bytes (a C string, so with no
    NUL) and the bytes of the host file it names.  A failed `assert` is an
    error carrying the asserted expression.

    `ialloc` hands out `freeinode++` with no check against `NINODES`:
    `mkfs_inum_past_ninodes` builds an image from 200 files whose last
    files have i-numbers at or past the superblock's `ninodes`. -/

namespace Xv6.Mkfs

open Fs

/-- `NINODES`. -/
def NINODES : Nat := 200

def nbitmap : Nat := FSSIZE / BPB + 1

def ninodeblocks : Nat := NINODES / IPB + 1

/-- Header followed by `LOGBLOCKS` data blocks. -/
def nlog : Nat := LOGBLOCKS + 1

/-- Number of meta blocks (boot, sb, nlog, inode, bitmap). -/
def nmeta : Nat := 2 + nlog + ninodeblocks + nbitmap

/-- Number of data blocks. -/
def nblocks : Nat := FSSIZE - nmeta

/-- The superblock `mkfs` writes to block 1. -/
def superblock : Superblock where
  magic := FSMAGIC
  size := FSSIZE
  nblocks := nblocks
  ninodes := NINODES
  nlog := nlog
  logstart := 2
  inodestart := 2 + nlog
  bmapstart := 2 + nlog + ninodeblocks

/-- The image being written, and the two allocation counters. -/
structure Image where
  disk : Disk
  freeinode : Nat
  freeblock : Nat

abbrev MkfsM := StateT Image (Except String)

/-- `assert(c)`. -/
def assert (c : Bool) (expr : String) : MkfsM Unit :=
  if c then pure () else throw expr

def rsect (sec : Nat) : MkfsM (Nat → UInt8) := do
  return (← get).disk.data sec

def wsect (sec : Nat) (buf : Nat → UInt8) : MkfsM Unit :=
  modify fun im => { im with disk := { im.disk with data := Function.update im.disk.data sec buf } }

def rinode (inum : Nat) : MkfsM DInode := do
  return (← get).disk.dinode inum

def winode (inum : Nat) (din : DInode) : MkfsM Unit :=
  modify fun im => { im with disk := { im.disk with dinode := Function.update im.disk.dinode inum din } }

/-- `ialloc(type)`: the next i-number, with one link. -/
def ialloc (type : Int16) : MkfsM Nat := do
  let inum := (← get).freeinode
  modify fun im => { im with freeinode := im.freeinode + 1 }
  winode inum { DInode.zero with type := type, nlink := 1, size := 0 }
  return inum

/-- `freeblock++`. -/
def nextBlock : MkfsM Nat := do
  let b := (← get).freeblock
  modify fun im => { im with freeblock := im.freeblock + 1 }
  return b

/-- The block of logical block `fbn` in `iappend`, allocated when the
    inode has none; the `dinode` copy it updates. -/
def appendBlock (din : DInode) (fbn : Nat) : MkfsM (DInode × Nat) := do
  if h : fbn < NDIRECT then
    let k := direct ⟨fbn, h⟩
    let din ← if din.addrs k = 0 then
        (fun b => { din with addrs := Function.update din.addrs k b }) <$> nextBlock
      else pure din
    return (din, din.addrs k)
  else
    let din ← if din.addrs indirect = 0 then
        (fun b => { din with addrs := Function.update din.addrs indirect b }) <$> nextBlock
      else pure din
    let ind ← rsect (din.addrs indirect)
    if indirectEntry ind (fbn - NDIRECT) = 0 then
      let b ← nextBlock
      wsect (din.addrs indirect) (Bytes.setLE ind (4 * (fbn - NDIRECT)) b 4)
      return (din, b)
    return (din, indirectEntry ind (fbn - NDIRECT))

/-- The loop of `iappend` over the bytes of `p` from `pos`, at file
    offset `off`: the `dinode` copy and the offset reached. -/
def iappendLoop (p : List UInt8) : Nat → DInode → Nat → Nat → MkfsM (DInode × Nat)
  | 0, din, off, _ => return (din, off)
  | fuel + 1, din, off, pos => do
      if pos < p.length then
        let fbn := off / BSIZE
        assert (fbn < MAXFILE) "fbn < MAXFILE"
        let (din, x) ← appendBlock din fbn
        let n1 := min (p.length - pos) ((fbn + 1) * BSIZE - off)
        let buf ← rsect x
        wsect x (Bytes.copyBytes buf (off - fbn * BSIZE) (Bytes.ofList p) pos n1)
        iappendLoop p fuel din (off + n1) (pos + n1)
      else return (din, off)

/-- `iappend(inum, p, n)` of the `n = p.length` bytes of `p`. -/
def iappend (inum : Nat) (p : List UInt8) : MkfsM Unit := do
  let din ← rinode inum
  let (din, off) ← iappendLoop p p.length din din.size 0
  winode inum { din with size := off }

/-- `while((cc = read(fd, buf, sizeof(buf))) > 0) iappend(inum, buf, cc);` -/
def appendContents (inum : Nat) : Nat → List UInt8 → MkfsM Unit
  | 0, _ => return
  | fuel + 1, bytes => do
      if bytes.isEmpty then return
      iappend inum (bytes.take BSIZE)
      appendContents inum fuel (bytes.drop BSIZE)

/-- The bytes of `"user/"`. -/
def userPrefix : List UInt8 := [117, 115, 101, 114, 47]

/-- The `_` byte. -/
def underscore : UInt8 := 95

/-- The name written to the file system: without `user/`, then without a
    leading `_`. -/
def shortname (arg : List UInt8) : List UInt8 :=
  let s := if strncmp arg userPrefix 5 = 0 then arg.drop 5 else arg
  if s.headD 0 = underscore then s.drop 1 else s

/-- A file named on the command line. -/
structure InputFile where
  arg : List UInt8
  contents : List UInt8

/-- One iteration of the loop of `main` over the files. -/
def addFile (rootino : Nat) (f : InputFile) : MkfsM Unit := do
  let name := shortname f.arg
  assert (slash ∉ name) "index(shortname, \x27/\x27) == 0"
  assert (name.length ≤ DIRSIZ) "strlen(shortname) <= DIRSIZ"
  let inum ← ialloc T_FILE
  iappend rootino (direntBytes inum (strncpy name DIRSIZ))
  appendContents inum f.contents.length f.contents

/-- `balloc(used)`: the bitmap with its first `used` bits set. -/
def balloc (used : Nat) : MkfsM Unit := do
  assert (used < BPB) "used < BPB"
  modify fun im => { im with disk := { im.disk with used := fun b => decide (b < used) } }

/-- The image once every sector is zeroed and the superblock written. -/
def Image.init : Image where
  disk := ⟨superblock, fun _ => false, fun _ => DInode.zero, fun _ _ => 0⟩
  freeinode := 1
  freeblock := nmeta

/-- `main`: the steps that build the image. -/
def build (files : List InputFile) : MkfsM Unit := do
  let rootino ← ialloc T_DIR
  assert (rootino = ROOTINO) "rootino == ROOTINO"
  iappend rootino (direntBytes rootino (strncpy dot DIRSIZ))
  iappend rootino (direntBytes rootino (strncpy dotdot DIRSIZ))
  files.forM (addFile rootino)
  -- fix size of root inode dir
  let din ← rinode rootino
  let off := (din.size / BSIZE + 1) * BSIZE
  winode rootino { din with size := off }
  balloc (← get).freeblock

/-- The disk image `mkfs` writes for `files`. -/
def mkfs (files : List InputFile) : Except String Disk :=
  (build files).run Image.init |>.map fun r => r.2.disk

/-- Two hundred empty files with the two-letter names `Aa`, `Ab`, ... -/
def twoHundredFiles : List InputFile :=
  (List.range 200).map fun k => ⟨[UInt8.ofNat (65 + k / 26), UInt8.ofNat (97 + k % 26)], []⟩

/-- From 200 files `mkfs` writes an image whose superblock says
    `ninodes = 200` and whose root's entry 201 names i-number 201, an
    allocated file: the root takes i-number 1 and the files 2 to 201. -/
theorem mkfs_inum_past_ninodes :
    ∃ d, mkfs twoHundredFiles = .ok d ∧ d.sb.ninodes = 200 ∧ (d.dinode 201).type = T_FILE ∧
      direntInum (direntAt d (d.dinode ROOTINO) 201) = 201 := by
  obtain ⟨d, hd, h⟩ := StateExcept.exists_of_checkOk (P := fun d : Disk =>
      d.sb.ninodes = 200 ∧ (d.dinode 201).type = T_FILE ∧
        direntInum (direntAt d (d.dinode ROOTINO) 201) = 201)
    (e := mkfs twoHundredFiles) (by decide +kernel)
  exact ⟨d, hd, h⟩

end Xv6.Mkfs
