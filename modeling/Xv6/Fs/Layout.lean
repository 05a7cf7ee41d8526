import Mathlib
import Xv6.Lib.Bytes
import Xv6.Log.Trans

/-! # File-system state

    The on-disk format of `fs.h`, the kernel's in-memory tables, and the
    string routines of `string.c` that the file system uses on names.

    The disk is read through its regions: the superblock, the free bitmap
    (one bit per block), the inode blocks (one `struct dinode` per
    i-number) and the bytes of the other blocks.  File-system calls run one
    after the other, each inside `begin_op`/`end_op`, so between calls the
    buffer cache and the disk agree and the model keeps one copy of the
    blocks; what the log decides (the blocks of the transaction, the panics
    of `log_write`) is kept in `log`.

    An inode pointer is an index into `itable.inode[NINODE]` and a file
    pointer an index into `ftable.file[NFILE]`; a slot with `ref = 0` is
    free.  The calling process contributes its `ofile` array and `cwd`.

    A C string is the list of its bytes before the terminating NUL; a
    `char name[DIRSIZ]` read from a directory entry is the list of its
    `DIRSIZ` bytes. -/

namespace Xv6.Fs

/-- `NINODE`: maximum number of active i-nodes. -/
def NINODE : Nat := 50

/-- `NFILE`: open files per system. -/
def NFILE : Nat := 100

/-- `NOFILE`: open files per process. -/
def NOFILE : Nat := 16

/-- `NDEV`: maximum major device number. -/
def NDEV : Nat := 10

/-- `MAXPATH`: maximum file path name. -/
def MAXPATH : Nat := 128

/-- `IPB`: inodes per block, `BSIZE / sizeof(struct dinode)`. -/
def IPB : Nat := BSIZE / 64

def T_DIR : Int16 := 1

def T_FILE : Int16 := 2

def T_DEVICE : Int16 := 3

/-- `struct superblock`, as `readsb` leaves it in `sb`. -/
structure Superblock where
  magic : Nat
  size : Nat
  nblocks : Nat
  ninodes : Nat
  nlog : Nat
  logstart : Nat
  inodestart : Nat
  bmapstart : Nat
deriving DecidableEq, Repr

/-- `FSMAGIC`. -/
def FSMAGIC : Nat := 0x10203040

/-- `IBLOCK(i, sb)`: the block holding inode `i`. -/
def IBLOCK (i : Nat) (sb : Superblock) : Nat := i / IPB + sb.inodestart

/-- `BBLOCK(b, sb)`: the bitmap block holding the bit of block `b`. -/
def BBLOCK (b : Nat) (sb : Superblock) : Nat := b / BPB + sb.bmapstart

/-- `struct dinode`.  The shorts are `Int16`; `size` and the block
    addresses are `uint`s. -/
structure DInode where
  type : Int16
  major : Int16
  minor : Int16
  nlink : Int16
  size : Nat
  addrs : Fin (NDIRECT + 1) → Nat

/-- A `dinode` cleared by `memset`. -/
def DInode.zero : DInode := ⟨0, 0, 0, 0, 0, fun _ => 0⟩

/-- The disk, region by region. -/
structure Disk where
  sb : Superblock
  /-- bit `b` of the free bitmap: block `b` is in use -/
  used : Nat → Bool
  /-- the `struct dinode` of each i-number -/
  dinode : Nat → DInode
  /-- the bytes of each block -/
  data : Nat → Nat → UInt8

/-- `struct inode`, one slot of `itable` (`dev` is always `ROOTDEV`). -/
structure Inode where
  inum : Nat
  ref : Nat
  valid : Bool
  type : Int16
  major : Int16
  minor : Int16
  nlink : Int16
  size : Nat
  addrs : Fin (NDIRECT + 1) → Nat

/-- The fields `ilock` copies from the `dinode`. -/
def Inode.load (ip : Inode) (d : DInode) : Inode :=
  { ip with type := d.type, major := d.major, minor := d.minor, nlink := d.nlink,
            size := d.size, addrs := d.addrs }

/-- The fields `iupdate` copies to the `dinode`. -/
def Inode.toDinode (ip : Inode) : DInode :=
  ⟨ip.type, ip.major, ip.minor, ip.nlink, ip.size, ip.addrs⟩

/-- An `itable` slot before its first use. -/
def Inode.empty : Inode := ⟨0, 0, false, 0, 0, 0, 0, 0, fun _ => 0⟩

/-- The `type` field of `struct file`; pipes are not files of this model. -/
inductive FileType where
  | none
  | inode
  | device
deriving DecidableEq, Repr

/-- `struct file`, one slot of `ftable`. -/
structure File where
  type : FileType
  ref : Nat
  readable : Bool
  writable : Bool
  ip : Fin NINODE
  off : Nat
  major : Int16

/-- An `ftable` slot before its first use. -/
theorem NINODE_pos : 0 < NINODE := by decide

def File.empty : File := ⟨.none, 0, false, false, ⟨0, NINODE_pos⟩, 0, 0⟩

/-- The state the file-system code reads and writes. -/
structure FsState where
  disk : Disk
  itable : Fin NINODE → Inode
  ftable : Fin NFILE → File
  /-- `myproc()->ofile` -/
  ofile : Fin NOFILE → Option (Fin NFILE)
  /-- `myproc()->cwd` -/
  cwd : Fin NINODE
  log : Log.LogState

/-- Kernel code over the file-system state; an error is a `panic`. -/
abbrev FsM := StateT FsState (Except String)

/-- `panic(msg)`. -/
def panic {α : Type} (msg : String) : FsM α := throw msg

/-! ## Reading and writing one part of the state -/

def getInode (i : Fin NINODE) : FsM Inode := do
  return (← get).itable i

def setInode (i : Fin NINODE) (ip : Inode) : FsM Unit :=
  modify fun s => { s with itable := Function.update s.itable i ip }

def modifyInode (i : Fin NINODE) (f : Inode → Inode) : FsM Unit :=
  modify fun s => { s with itable := Function.update s.itable i (f (s.itable i)) }

def setDinode (inum : Nat) (d : DInode) : FsM Unit :=
  modify fun s => { s with disk := { s.disk with dinode := Function.update s.disk.dinode inum d } }

def setData (b : Nat) (blk : Nat → UInt8) : FsM Unit :=
  modify fun s => { s with disk := { s.disk with data := Function.update s.disk.data b blk } }

def setUsed (b : Nat) (v : Bool) : FsM Unit :=
  modify fun s => { s with disk := { s.disk with used := Function.update s.disk.used b v } }

def setFile (f : Fin NFILE) (x : File) : FsM Unit :=
  modify fun s => { s with ftable := Function.update s.ftable f x }

/-! ## The log, for calls that run one at a time -/

/-- `log_write(bp)` for the buffer of block `b`: the checks and the
    absorption of `Log.logWrite`. -/
def logWrite (b : Nat) : FsM Unit := do
  match Log.logWrite (← get).log b with
  | .ok l => modify fun s => { s with log := l }
  | .error msg => panic msg

/-- `begin_op()` of a call that runs alone.  Between calls the log is
    empty and nothing is outstanding, so `Log.beginOp` admits the call at
    once (`beginOp_admits`). -/
def beginOp : FsM Unit :=
  modify fun s => { s with log := { s.log with outstanding := s.log.outstanding + 1 } }

/-- `end_op()` of a call that runs alone: the locked part of `Log.endOp`,
    then `commit` when it was the last call out.  The transaction's blocks
    are already in `disk`. -/
def endOp : FsM Unit := do
  match Log.endOp (← get).log with
  | .ok (l, true) => modify fun s => { s with log := Log.commitDone l }
  | .ok (l, false) => modify fun s => { s with log := l }
  | .error msg => panic msg

theorem beginOp_admits (l : Log.LogState) (hc : l.committing = false) (hl : l.lh = [])
    (ho : l.outstanding = 0) :
    Log.beginOp l = some { l with outstanding := l.outstanding + 1 } := by
  simp [Log.beginOp, hc, hl, ho, MAXOPBLOCKS, LOGBLOCKS]

theorem beginOp_run (s : FsState) : beginOp.run s =
    pure ((), { s with log := { s.log with outstanding := s.log.outstanding + 1 } }) := rfl

theorem endOp_run {s : FsState} (hc : s.log.committing = false) :
    ∃ l, endOp.run s = pure ((), { s with log := l }) := by
  simp only [endOp, StateT.run_bind, StateT.run_get, pure_bind]
  rcases h : Log.endOp s.log with msg | ⟨l, c⟩
  · exact absurd (Log.endOp_eq_error h) (by simp [hc])
  · cases c <;> exact ⟨_, rfl⟩

/-! ## Names -/

/-- `strncmp(p, q, n)` of `string.c`; the end of a list reads as NUL. -/
def strncmp : List UInt8 → List UInt8 → Nat → Int
  | _, _, 0 => 0
  | p, q, n + 1 =>
      let a := p.headD 0
      let b := q.headD 0
      if a ≠ 0 ∧ a = b then strncmp p.tail q.tail n else (a.toNat : Int) - b.toNat

/-- `strncpy(s, t, n)` of `string.c`: the `n` bytes it leaves in `s`. -/
def strncpy : List UInt8 → Nat → List UInt8
  | _, 0 => []
  | [], n + 1 => List.replicate (n + 1) 0
  | c :: t, n + 1 => if c = 0 then List.replicate (n + 1) 0 else c :: strncpy t n

/-- `namecmp(s, t)`. -/
def namecmp (s t : List UInt8) : Int := strncmp s t DIRSIZ

/-- `struct dirent` as its `sizeof(struct dirent)` bytes: `inum` as a
    little-endian `ushort`, then the `DIRSIZ` bytes of `name`. -/
def direntBytes (inum : Nat) (name : List UInt8) : List UInt8 :=
  [UInt8.ofNat (inum % 256), UInt8.ofNat (inum / 256 % 256)] ++ name

/-- `de.inum` of the entry read into `de`. -/
def direntInum (de : List UInt8) : Nat :=
  (de.getD 0 0).toNat + 256 * (de.getD 1 0).toNat

/-- `de.name` of the entry read into `de`. -/
def direntName (de : List UInt8) : List UInt8 :=
  (de.drop 2).take DIRSIZ

@[simp]
theorem strncpy_length : ∀ (t : List UInt8) (n : Nat), (strncpy t n).length = n
  | _, 0 => by simp [strncpy]
  | [], n + 1 => by simp [strncpy]
  | c :: t, n + 1 => by
      by_cases hc : c = 0
      · simp [strncpy, hc]
      · simp [strncpy, hc, strncpy_length t n]

theorem direntInum_direntBytes (inum : Nat) (name : List UInt8) (h : inum < 2 ^ 16) :
    direntInum (direntBytes inum name) = inum := by
  simp only [direntInum, direntBytes, List.cons_append, List.nil_append, List.getD_cons_zero,
    List.getD_cons_succ, UInt8.toNat_ofNat']
  omega

theorem direntName_direntBytes (inum : Nat) (name : List UInt8) (h : name.length = DIRSIZ) :
    direntName (direntBytes inum name) = name := by
  simp [direntName, direntBytes, ← h]

end Xv6.Fs
