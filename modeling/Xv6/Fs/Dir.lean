import Xv6.Fs.Inode

/-! # Directories and path names

    `dirlookup`, `dirlink`, `skipelem` and `namex` of `fs.c`.  A directory
    is read one `struct dirent` at a time through `readi`, so a lookup
    runs `bmap` on every block it passes, and a short read is the panic
    "dirlookup read" or "dirlink read".

    The loops run on `fuel`: the directory loops are given one unit per
    entry of the directory and one more, `namex` one unit per byte of the
    path and one more; `skipelem` consumes at least one byte per element. -/

namespace Xv6.Fs

/-- The loop of `dirlookup` from offset `off`: the inode of the first
    live entry named `name`, and its offset. -/
def dirlookupLoop (dp : Fin NINODE) (name : List UInt8) :
    Nat → Nat → FsM (Option (Fin NINODE × Nat))
  | _, 0 => return none
  | off, fuel + 1 => do
      if off < (← getInode dp).size then
        let (tot, de) ← readi dp off DIRENT_SIZE
        if tot ≠ DIRENT_SIZE then panic "dirlookup read"
        if direntInum de = 0 then dirlookupLoop dp name (off + DIRENT_SIZE) fuel
        else if namecmp name (direntName de) = 0 then
          let ip ← iget (direntInum de)
          return some (ip, off)
        else dirlookupLoop dp name (off + DIRENT_SIZE) fuel
      else return none

/-- `dirlookup(dp, name, poff)`. -/
def dirlookup (dp : Fin NINODE) (name : List UInt8) : FsM (Option (Fin NINODE × Nat)) := do
  let ip ← getInode dp
  if ip.type ≠ T_DIR then panic "dirlookup not DIR"
  dirlookupLoop dp name 0 (ip.size / DIRENT_SIZE + 1)

/-- The loop of `dirlink` that looks for a free entry: the offset where it
    stops, the first free entry or the end of the directory. -/
def dirlinkLoop (dp : Fin NINODE) : Nat → Nat → FsM Nat
  | off, 0 => return off
  | off, fuel + 1 => do
      if off < (← getInode dp).size then
        let (tot, de) ← readi dp off DIRENT_SIZE
        if tot ≠ DIRENT_SIZE then panic "dirlink read"
        if direntInum de = 0 then return off
        dirlinkLoop dp (off + DIRENT_SIZE) fuel
      else return off

/-- `dirlink(dp, name, inum)`: `0`, or `-1` when the name is present or
    the entry cannot be written. -/
def dirlink (dp : Fin NINODE) (name : List UInt8) (inum : Nat) : FsM Int := do
  match ← dirlookup dp name with
  | some (ip, _) =>
      iput ip
      return -1
  | none =>
      let off ← dirlinkLoop dp 0 ((← getInode dp).size / DIRENT_SIZE + 1)
      let de := direntBytes inum (strncpy name DIRSIZ)
      if (← writei dp de off) ≠ DIRENT_SIZE then return -1
      return 0

/-- The `'/'` byte. -/
def slash : UInt8 := 47

/-- `while(*path == '/') path++;` -/
def skipSlashes : List UInt8 → List UInt8
  | [] => []
  | c :: p => if c = slash then skipSlashes p else c :: p

/-- `skipelem(path, name)`: the rest of the path and the element copied
    into `name` (its first `DIRSIZ` bytes, unterminated, when it is that
    long); `none` when no element is left. -/
def skipelem (path : List UInt8) : Option (List UInt8 × List UInt8) :=
  let path := skipSlashes path
  if path.headD 0 = 0 then none
  else
    let elem := path.takeWhile fun c => c != slash && c != 0
    let name := if elem.length ≥ DIRSIZ then elem.take DIRSIZ else elem
    some (skipSlashes (path.drop elem.length), name)

/-- The end of `namex` once no element is left. -/
def namexEnd (nameiparent : Bool) (ip : Fin NINODE) (name : List UInt8) :
    FsM (Option (Fin NINODE) × List UInt8) := do
  if nameiparent then
    iput ip
    return (none, name)
  return (some ip, name)

/-- The loop of `namex`, from the inode `ip` it holds. -/
def namexLoop (nameiparent : Bool) :
    Fin NINODE → List UInt8 → List UInt8 → Nat → FsM (Option (Fin NINODE) × List UInt8)
  | ip, _, name, 0 => namexEnd nameiparent ip name
  | ip, path, name, fuel + 1 =>
      match skipelem path with
      | none => namexEnd nameiparent ip name
      | some (path, name) => do
          ilock ip
          if (← getInode ip).type ≠ T_DIR then
            iunlockput ip
            return (none, name)
          if nameiparent ∧ path.headD 0 = 0 then
            -- stop one level early
            iunlock ip
            return (some ip, name)
          match ← dirlookup ip name with
          | none =>
              iunlockput ip
              return (none, name)
          | some (next, _) =>
              iunlockput ip
              namexLoop nameiparent next path name fuel

/-- What `namexLoop` does, over the list of the path's names instead of
    the string (`namexLoop_eq_namexNames` shows the two agree):
    each name is looked up in the directory the loop holds, and with
    `nameiparent` the loop stops before the last one. -/
def namexNames (nameiparent : Bool) :
    Fin NINODE → List (List UInt8) → List UInt8 → FsM (Option (Fin NINODE) × List UInt8)
  | ip, [], name => namexEnd nameiparent ip name
  | ip, name :: names, _ => do
      ilock ip
      if (← getInode ip).type ≠ T_DIR then
        iunlockput ip
        return (none, name)
      if nameiparent ∧ names = [] then
        iunlock ip
        return (some ip, name)
      match ← dirlookup ip name with
      | none =>
          iunlockput ip
          return (none, name)
      | some (next, _) =>
          iunlockput ip
          namexNames nameiparent next names name

/-- `namex(path, nameiparent, name)`: the inode, and the last element
    when `nameiparent` is set. -/
def namex (path : List UInt8) (nameiparent : Bool) : FsM (Option (Fin NINODE) × List UInt8) := do
  let ip ← if path.headD 0 = slash then iget ROOTINO else idup (← get).cwd
  namexLoop nameiparent ip path [] (path.length + 1)

/-- `namei(path)`. -/
def namei (path : List UInt8) : FsM (Option (Fin NINODE)) := do
  return (← namex path false).1

/-- `nameiparent(path, name)`. -/
def nameiparent (path : List UInt8) : FsM (Option (Fin NINODE) × List UInt8) :=
  namex path true

end Xv6.Fs
