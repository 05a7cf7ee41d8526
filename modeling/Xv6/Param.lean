import Mathlib

/-! # Kernel parameters

    The constants of `kernel/param.h` and `kernel/fs.h` that the modelled
    code reads.  They are plain definitions so that the proofs see their
    values through `decide` and `omega` after unfolding. -/

namespace Xv6

/-- `MAXOPBLOCKS`: max number of blocks any FS op writes. -/
def MAXOPBLOCKS : Nat := 10

/-- `LOGBLOCKS`: max data blocks in the on-disk log. -/
def LOGBLOCKS : Nat := MAXOPBLOCKS * 3

/-- `FSSIZE`: size of the file system in blocks. -/
def FSSIZE : Nat := 2000

/-- `BSIZE`: block size in bytes. -/
def BSIZE : Nat := 1024

/-- `ROOTINO`: the root directory's i-number. -/
def ROOTINO : Nat := 1

/-- `NDIRECT`: direct block addresses in an inode. -/
def NDIRECT : Nat := 12

/-- `NINDIRECT`: addresses in an indirect block, `BSIZE / sizeof(uint)`. -/
def NINDIRECT : Nat := BSIZE / 4

/-- `MAXFILE`: max blocks in a file. -/
def MAXFILE : Nat := NDIRECT + NINDIRECT

/-- `DIRSIZ`: bytes of a name in a directory entry. -/
def DIRSIZ : Nat := 14

/-- `sizeof(struct dirent)`: a 2-byte i-number and a `DIRSIZ`-byte name. -/
def DIRENT_SIZE : Nat := 2 + DIRSIZ

/-- `BPB`: bitmap bits per block. -/
def BPB : Nat := BSIZE * 8

theorem LOGBLOCKS_eq : LOGBLOCKS = 30 := rfl

theorem BSIZE_eq : BSIZE = 1024 := rfl

end Xv6
