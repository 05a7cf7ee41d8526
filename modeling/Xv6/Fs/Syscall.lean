import Xv6.Fs.Dir

/-! # File descriptors and file-system calls

    `file.c` and `sysfile.c` for the calling process: the file table, the
    descriptor table, and the calls that read and change the name space.
    Each call checks its string arguments as `argstr` does (a path of
    `MAXPATH` bytes or more does not fit) and runs between `begin_op` and
    `end_op`; `fileread` runs outside a transaction, `filewrite` opens one
    per chunk.

    The device switch `devsw` is a parameter: `devsw major` is the
    `read` or `write` routine of a major number, if it has one, as the
    result it returns for a byte count. -/

namespace Xv6.Fs

/-- `O_RDONLY`. -/
def O_RDONLY : Int32 := 0x000
/-- `O_WRONLY`. -/
def O_WRONLY : Int32 := 0x001
/-- `O_RDWR`. -/
def O_RDWR : Int32 := 0x002
/-- `O_CREATE`. -/
def O_CREATE : Int32 := 0x200
/-- `O_TRUNC`. -/
def O_TRUNC : Int32 := 0x400

/-- The routine of a major number in `devsw`, as the count it returns. -/
abbrev DevSw := Nat → Option (Int → Int)

/-! ## The file table (`file.c`) -/

/-- `filealloc()`. -/
def filealloc : FsM (Option (Fin NFILE)) := do
  let s ← get
  match (List.finRange NFILE).find? (fun f => (s.ftable f).ref == 0) with
  | some f =>
      setFile f { s.ftable f with ref := 1 }
      return some f
  | none => return none

/-- `filedup(f)`. -/
def filedup (f : Fin NFILE) : FsM Unit := do
  let x := (← get).ftable f
  if x.ref < 1 then panic "filedup"
  setFile f { x with ref := x.ref + 1 }

/-- `fileclose(f)`: the last reference releases the inode. -/
def fileclose (f : Fin NFILE) : FsM Unit := do
  let x := (← get).ftable f
  if x.ref < 1 then panic "fileclose"
  if x.ref - 1 > 0 then
    setFile f { x with ref := x.ref - 1 }
    return
  setFile f { x with ref := 0, type := .none }
  if x.type = .inode ∨ x.type = .device then
    beginOp
    iput x.ip
    endOp

/-- `major < 0 || major >= NDEV || !devsw[major].rw`, else the routine. -/
def devRoutine (devsw : DevSw) (major : Int16) : Option (Int → Int) :=
  if major < 0 ∨ major.toInt ≥ NDEV then none else devsw major.toInt.toNat

/-- The `uint` value of an `int` byte count. -/
def toUint (n : Int) : Nat := (n % 2 ^ 32).toNat

/-- `fileread(f, addr, n)`: the inode case reads through `readi` with no
    transaction open. -/
def fileread (devsw : DevSw) (f : Fin NFILE) (n : Int) : FsM Int := do
  let x := (← get).ftable f
  if x.readable = false then return -1
  match x.type with
  | .device =>
      match devRoutine devsw x.major with
      | none => return -1
      | some rd => return rd n
  | .inode =>
      ilock x.ip
      let (r, _) ← readi x.ip x.off (toUint n)
      if r > 0 then
        let x' := (← get).ftable f
        setFile f { x' with off := x'.off + r }
      iunlock x.ip
      return r
  | .none => panic "fileread"

/-- `((MAXOPBLOCKS-1-1-2) / 2) * BSIZE`: the bytes `filewrite` writes per
    transaction. -/
def maxWrite : Nat := ((MAXOPBLOCKS - 1 - 1 - 2) / 2) * BSIZE

/-- The loop of `filewrite` from byte `i` of `src`: the count it reaches. -/
def filewriteLoop (f : Fin NFILE) (ip : Fin NINODE) (src : List UInt8) : Nat → Nat → FsM Nat
  | i, 0 => return i
  | i, fuel + 1 => do
      if i < src.length then
        let n1 := min (src.length - i) maxWrite
        beginOp
        ilock ip
        let r ← writei ip ((src.drop i).take n1) ((← get).ftable f).off
        if r > 0 then
          let x := (← get).ftable f
          setFile f { x with off := x.off + r.toNat }
        iunlock ip
        endOp
        -- a short count is an error from `writei`
        if r ≠ n1 then return i
        filewriteLoop f ip src (i + n1) fuel
      else return i

/-- `filewrite(f, addr, n)` of the `n = src.length` bytes of `src`. -/
def filewrite (devsw : DevSw) (f : Fin NFILE) (src : List UInt8) : FsM Int := do
  let x := (← get).ftable f
  if x.writable = false then return -1
  match x.type with
  | .device =>
      match devRoutine devsw x.major with
      | none => return -1
      | some wr => return wr src.length
  | .inode =>
      let i ← filewriteLoop f x.ip src 0 src.length
      return if i = src.length then src.length else -1
  | .none => panic "filewrite"

/-! ## Descriptors (`sysfile.c`) -/

theorem toNat_lt_NOFILE {fd : Int} (h : 0 ≤ fd ∧ fd < NOFILE) : fd.toNat < NOFILE := by
  omega

/-- `argfd(n, &fd, &f)`: the descriptor and its open file. -/
def argfd (s : FsState) (fd : Int) : Option (Fin NOFILE × Fin NFILE) :=
  if h : 0 ≤ fd ∧ fd < NOFILE then
    let d : Fin NOFILE := ⟨fd.toNat, toNat_lt_NOFILE h⟩
    (s.ofile d).map fun f => (d, f)
  else none

/-- `fdalloc(f)`: the lowest free descriptor takes `f`. -/
def fdalloc (f : Fin NFILE) : FsM (Option (Fin NOFILE)) := do
  let s ← get
  match (List.finRange NOFILE).find? (fun d => s.ofile d == none) with
  | some d =>
      modify fun s => { s with ofile := Function.update s.ofile d (some f) }
      return some d
  | none => return none

/-- `argstr(n, buf, MAXPATH)`: a string fits when its NUL does. -/
def argstrOk (path : List UInt8) : Bool := path.length < MAXPATH

def sys_dup (fd : Int) : FsM Int := do
  match argfd (← get) fd with
  | none => return -1
  | some (_, f) =>
      match ← fdalloc f with
      | none => return -1
      | some d =>
          filedup f
          return d.val

def sys_read (devsw : DevSw) (fd : Int) (n : Int) : FsM Int := do
  match argfd (← get) fd with
  | none => return -1
  | some (_, f) => fileread devsw f n

def sys_write (devsw : DevSw) (fd : Int) (src : List UInt8) : FsM Int := do
  match argfd (← get) fd with
  | none => return -1
  | some (_, f) => filewrite devsw f src

def sys_close (fd : Int) : FsM Int := do
  match argfd (← get) fd with
  | none => return -1
  | some (d, f) =>
      modify fun s => { s with ofile := Function.update s.ofile d none }
      fileclose f
      return 0

/-! ## Links -/

/-- The `bad:` exit of `sys_link`: the link count taken is given back. -/
def sysLinkBad (ip : Fin NINODE) : FsM Int := do
  ilock ip
  modifyInode ip fun x => { x with nlink := x.nlink - 1 }
  iupdate ip
  iunlockput ip
  endOp
  return -1

/-- `sys_link(old, new)`: the link count is raised before the new entry
    is written, and lowered again when it cannot be. -/
def sys_link (old new : List UInt8) : FsM Int := do
  if !argstrOk old || !argstrOk new then return -1
  beginOp
  match ← namei old with
  | none =>
      endOp
      return -1
  | some ip =>
      ilock ip
      if (← getInode ip).type = T_DIR then
        iunlockput ip
        endOp
        return -1
      modifyInode ip fun x => { x with nlink := x.nlink + 1 }
      iupdate ip
      iunlock ip
      match ← nameiparent new with
      | (none, _) => sysLinkBad ip
      | (some dp, name) =>
          ilock dp
          if (← dirlink dp name (← getInode ip).inum) < 0 then
            iunlockput dp
            sysLinkBad ip
          else
            iunlockput dp
            iput ip
            endOp
            return 0

/-- The loop of `isdirempty` from offset `off`. -/
def isdiremptyLoop (dp : Fin NINODE) : Nat → Nat → FsM Bool
  | _, 0 => return true
  | off, fuel + 1 => do
      if off < (← getInode dp).size then
        let (tot, de) ← readi dp off DIRENT_SIZE
        if tot ≠ DIRENT_SIZE then panic "isdirempty: readi"
        if direntInum de ≠ 0 then return false
        isdiremptyLoop dp (off + DIRENT_SIZE) fuel
      else return true

/-- `isdirempty(dp)`: no live entry past `.` and `..`. -/
def isdirempty (dp : Fin NINODE) : FsM Bool := do
  isdiremptyLoop dp (2 * DIRENT_SIZE) ((← getInode dp).size / DIRENT_SIZE + 1)

/-- The name `"."`. -/
def dot : List UInt8 := [46]

/-- The name `".."`. -/
def dotdot : List UInt8 := [46, 46]

/-- The `bad:` exit of `sys_unlink`. -/
def sysUnlinkBad (dp : Fin NINODE) : FsM Int := do
  iunlockput dp
  endOp
  return -1

/-- `sys_unlink(path)`. -/
def sys_unlink (path : List UInt8) : FsM Int := do
  if !argstrOk path then return -1
  beginOp
  match ← nameiparent path with
  | (none, _) =>
      endOp
      return -1
  | (some dp, name) =>
      ilock dp
      if namecmp name dot = 0 ∨ namecmp name dotdot = 0 then sysUnlinkBad dp
      else
        match ← dirlookup dp name with
        | none => sysUnlinkBad dp
        | some (ip, off) =>
            ilock ip
            if (← getInode ip).nlink < 1 then panic "unlink: nlink < 1"
            let nonempty ← if (← getInode ip).type = T_DIR then (!·) <$> isdirempty ip
              else pure false
            if nonempty then
              iunlockput ip
              sysUnlinkBad dp
            else
              if (← writei dp (List.replicate DIRENT_SIZE 0) off) ≠ DIRENT_SIZE then
                panic "unlink: writei"
              if (← getInode ip).type = T_DIR then
                modifyInode dp fun x => { x with nlink := x.nlink - 1 }
                iupdate dp
              iunlockput dp
              modifyInode ip fun x => { x with nlink := x.nlink - 1 }
              iupdate ip
              iunlockput ip
              endOp
              return 0

/-! ## Creation -/

/-- The `fail:` exit of `create`: the new inode loses its link, and the
    last `iput` frees it. -/
def createFail (ip dp : Fin NINODE) : FsM (Option (Fin NINODE)) := do
  modifyInode ip fun x => { x with nlink := 0 }
  iupdate ip
  iunlockput ip
  iunlockput dp
  return none

/-- `create(path, type, major, minor)`: a locked inode, or `none`. -/
def create (path : List UInt8) (type major minor : Int16) : FsM (Option (Fin NINODE)) := do
  match ← nameiparent path with
  | (none, _) => return none
  | (some dp, name) =>
      ilock dp
      match ← dirlookup dp name with
      | some (ip, _) =>
          iunlockput dp
          ilock ip
          let t := (← getInode ip).type
          if type = T_FILE ∧ (t = T_FILE ∨ t = T_DEVICE) then return some ip
          iunlockput ip
          return none
      | none =>
          match ← ialloc type with
          | none =>
              iunlockput dp
              return none
          | some ip =>
              ilock ip
              modifyInode ip fun x => { x with major := major, minor := minor, nlink := 1 }
              iupdate ip
              let inum := (← getInode ip).inum
              -- `.` and `..` of a new directory; no link is counted for `.`
              if type = T_DIR then
                if (← dirlink ip dot inum) < 0 then return ← createFail ip dp
                if (← dirlink ip dotdot (← getInode dp).inum) < 0 then return ← createFail ip dp
              if (← dirlink dp name inum) < 0 then return ← createFail ip dp
              if type = T_DIR then
                -- for `..`, now that success is guaranteed
                modifyInode dp fun x => { x with nlink := x.nlink + 1 }
                iupdate dp
              iunlockput dp
              return some ip

/-- The exit of `sys_open` once `ip` is held and locked. -/
def sysOpenFail (ip : Fin NINODE) : FsM Int := do
  iunlockput ip
  endOp
  return -1

/-- The second half of `sys_open`, once `ip` is held and locked: the
    device check, the file and its descriptor, and `O_TRUNC`. -/
def sysOpenFile (ip : Fin NINODE) (omode : Int32) : FsM Int := do
  let x ← getInode ip
  if x.type = T_DEVICE ∧ (x.major < 0 ∨ x.major.toInt ≥ NDEV) then return ← sysOpenFail ip
  match ← filealloc with
  | none => sysOpenFail ip
  | some f =>
      match ← fdalloc f with
      | none =>
          fileclose f
          sysOpenFail ip
      | some fd =>
          let fl := (← get).ftable f
          let fl := if x.type = T_DEVICE then { fl with type := .device, major := x.major }
            else { fl with type := .inode, off := 0 }
          let readable := omode &&& O_WRONLY == 0
          let writable := omode &&& O_WRONLY != 0 || omode &&& O_RDWR != 0
          setFile f { fl with ip := ip, readable := readable, writable := writable }
          if omode &&& O_TRUNC ≠ 0 ∧ x.type = T_FILE then itrunc ip
          iunlock ip
          endOp
          return fd.val

/-- `sys_open(path, omode)`. -/
def sys_open (path : List UInt8) (omode : Int32) : FsM Int := do
  if !argstrOk path then return -1
  beginOp
  let ip? ← if omode &&& O_CREATE ≠ 0 then create path T_FILE 0 0
    else do
      match ← namei path with
      | none => pure none
      | some ip =>
          ilock ip
          if (← getInode ip).type = T_DIR ∧ omode ≠ O_RDONLY then
            iunlockput ip
            endOp
            return -1
          pure (some ip)
  match ip? with
  | none =>
      endOp
      return -1
  | some ip => sysOpenFile ip omode

/-- `sys_mkdir(path)`. -/
def sys_mkdir (path : List UInt8) : FsM Int := do
  beginOp
  if !argstrOk path then
    endOp
    return -1
  match ← create path T_DIR 0 0 with
  | none =>
      endOp
      return -1
  | some ip =>
      iunlockput ip
      endOp
      return 0

/-- `sys_mknod(path, major, minor)`: the `int` arguments are stored as
    `short`s. -/
def sys_mknod (path : List UInt8) (major minor : Int32) : FsM Int := do
  beginOp
  if !argstrOk path then
    endOp
    return -1
  match ← create path T_DEVICE major.toInt16 minor.toInt16 with
  | none =>
      endOp
      return -1
  | some ip =>
      iunlockput ip
      endOp
      return 0

/-- `sys_chdir(path)`. -/
def sys_chdir (path : List UInt8) : FsM Int := do
  beginOp
  if !argstrOk path then
    endOp
    return -1
  match ← namei path with
  | none =>
      endOp
      return -1
  | some ip =>
      ilock ip
      if (← getInode ip).type ≠ T_DIR then
        iunlockput ip
        endOp
        return -1
      iunlock ip
      iput (← get).cwd
      endOp
      modify fun s => { s with cwd := ip }
      return 0

/-! ## Failure paths -/

section Failure

variable {s : FsState}

theorem fdalloc_run_full {f : Fin NFILE} (hfull : ∀ d, s.ofile d ≠ none) :
    (fdalloc f).run s = pure (none, s) := by
  have : (List.finRange NOFILE).find? (fun d => s.ofile d == none) = none := by
    simp [List.find?_eq_none, hfull]
  simp only [fdalloc, StateT.run_bind, StateT.run_get, pure_bind, this]
  rfl

theorem fileclose_run_unused {f : Fin NFILE} (href : (s.ftable f).ref = 1)
    (htype : (s.ftable f).type = .none) :
    ∃ t, (fileclose f).run s = pure ((), { s with ftable := t }) := by
  simp only [fileclose, StateT.run_bind, StateT.run_get, pure_bind, href, htype]
  simp only [Nat.lt_irrefl, if_false, Nat.sub_self, gt_iff_lt, StateT.run_bind]
  exact ⟨_, rfl⟩

theorem sysOpenFail_run {ip : Fin NINODE} (href : 1 ≤ (s.itable ip).ref)
    (hlink : (s.itable ip).nlink ≠ 0) (hc : s.log.committing = false) :
    ∃ s', (sysOpenFail ip).run s = pure (-1, s') ∧ s'.disk = s.disk := by
  obtain ⟨t, ht⟩ := iput_run_linked hlink
  obtain ⟨l, hl⟩ := endOp_run (s := { s with itable := t }) hc
  refine ⟨{ s with itable := t, log := l }, ?_, rfl⟩
  simp only [sysOpenFail, iunlockput, StateT.run_bind, iunlock_run href, pure_bind, ht, hl]
  rfl

/-- When no descriptor is free, the second half of `sys_open` closes the
    file it took, releases the inode and returns `-1`, leaving the disk. -/
theorem sysOpenFile_no_fd {ip : Fin NINODE} (omode : Int32) {f : Fin NFILE}
    (hnotdev : (s.itable ip).type ≠ T_DEVICE) (href : 1 ≤ (s.itable ip).ref)
    (hlink : (s.itable ip).nlink ≠ 0) (hc : s.log.committing = false)
    (hfile : (List.finRange NFILE).find? (fun f => (s.ftable f).ref == 0) = some f)
    (hnone : (s.ftable f).type = .none) (hfull : ∀ d, s.ofile d ≠ none) :
    ∃ s', (sysOpenFile ip omode).run s = pure (-1, s') ∧ s'.disk = s.disk := by
  have hdev : ¬ ((s.itable ip).type = T_DEVICE ∧
      ((s.itable ip).major < 0 ∨ (s.itable ip).major.toInt ≥ NDEV)) := fun h => hnotdev h.1
  -- `filealloc` takes slot `f`, which changes the file table only
  let s₁ : FsState := { s with ftable := Function.update s.ftable f { s.ftable f with ref := 1 } }
  have halloc : filealloc.run s = pure (some f, s₁) := by
    simp only [filealloc, StateT.run_bind, StateT.run_get, pure_bind, hfile]
    rfl
  obtain ⟨t, hclose⟩ := fileclose_run_unused (s := s₁) (f := f) (by simp [s₁]) (by simp [s₁, hnone])
  obtain ⟨s', hfail, hdisk⟩ := sysOpenFail_run (s := { s₁ with ftable := t }) href hlink hc
  refine ⟨s', ?_, hdisk⟩
  simp only [sysOpenFile, getInode, StateT.run_bind, StateT.run_get, StateT.run_pure, pure_bind,
    if_neg hdev, halloc, fdalloc_run_full (s := s₁) (f := f) hfull, hclose, hfail]

end Failure

end Xv6.Fs
