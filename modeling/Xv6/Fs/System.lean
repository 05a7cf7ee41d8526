import Xv6.Fs.Syscall

/-! # Boot and runs of file-system calls

    The kernel starts from a disk image: `userinit` takes the root
    directory as the first process's current directory (`namei("/")`, which
    only takes a table slot), then `forkret` runs `fsinit`, which checks the
    superblock, recovers the log and frees the orphaned inodes
    (`ireclaim`).  The image's log is clear (the log itself is the subject
    of `Log.Disk`), so recovery leaves the disk as it is.

    A run is a list of system calls made by the process, one after the
    other.  A crash between two calls leaves the disk of the last one:
    every call's transaction has committed. -/

namespace Xv6.Fs

/-- The loop of `ireclaim` from i-number `inum`. -/
def ireclaimLoop : Nat → Nat → FsM Unit
  | _, 0 => return
  | inum, fuel + 1 => do
      let s ← get
      if inum < s.disk.sb.ninodes then
        let d := s.disk.dinode inum
        -- an orphaned inode: allocated, with no link
        if d.type ≠ 0 ∧ d.nlink = 0 then
          let ip ← iget inum
          beginOp
          ilock ip
          iunlock ip
          iput ip
          endOp
        ireclaimLoop (inum + 1) fuel
      else return

/-- `ireclaim(dev)`. -/
def ireclaim : FsM Unit := do
  ireclaimLoop 1 (← get).disk.sb.ninodes

/-- `fsinit(dev)`. -/
def fsinit : FsM Unit := do
  if (← get).disk.sb.magic ≠ FSMAGIC then panic "invalid file system"
  ireclaim

/-- The kernel's tables at boot, over the disk `d`. -/
def FsState.init (d : Disk) : FsState where
  disk := d
  itable := fun _ => Inode.empty
  ftable := fun _ => File.empty
  ofile := fun _ => none
  cwd := ⟨0, NINODE_pos⟩
  log := ⟨0, false, []⟩

/-- `p->cwd = namei("/")` of `userinit`. -/
def userinit : FsM Unit := do
  match ← namei [slash] with
  | some ip => modify fun s => { s with cwd := ip }
  | none => return

/-- The state in which the first process makes its first call. -/
def boot (d : Disk) : Except String FsState :=
  (do userinit; fsinit : FsM Unit).run (FsState.init d) |>.map Prod.snd

/-- The file-system calls of a process. -/
inductive Syscall where
  | open (path : List UInt8) (omode : Int32)
  | read (fd : Int) (n : Int)
  | write (fd : Int) (src : List UInt8)
  | close (fd : Int)
  | dup (fd : Int)
  | link (old new : List UInt8)
  | unlink (path : List UInt8)
  | mkdir (path : List UInt8)
  | mknod (path : List UInt8) (major minor : Int32)
  | chdir (path : List UInt8)

/-- The kernel's handler of each call. -/
def syscall (devsw : DevSw) : Syscall → FsM Int
  | .open path omode => sys_open path omode
  | .read fd n => sys_read devsw fd n
  | .write fd src => sys_write devsw fd src
  | .close fd => sys_close fd
  | .dup fd => sys_dup fd
  | .link old new => sys_link old new
  | .unlink path => sys_unlink path
  | .mkdir path => sys_mkdir path
  | .mknod path major minor => sys_mknod path major minor
  | .chdir path => sys_chdir path

/-- A run of calls, with the value each returns. -/
def runCalls (devsw : DevSw) : List Syscall → FsM (List Int)
  | [] => return []
  | c :: cs => do
      let r ← syscall devsw c
      let rs ← runCalls devsw cs
      return r :: rs

/-- No device has a `read` or `write` routine. -/
def noDevices : DevSw := fun _ => none

/-- The bytes of an ASCII string, as a program passes a C string. -/
def cstr (str : String) : List UInt8 := str.toList.map fun c => c.toNat.toUInt8

/-- The state after booting from `d` and running `calls`. -/
def bootRun (devsw : DevSw) (d : Disk) (calls : List Syscall) : Except String (List Int × FsState) :=
  boot d >>= (runCalls devsw calls).run

end Xv6.Fs
