import Xv6.File.Pipe
import Xv6.Fs.Syscall
import Xv6.Mem.Proc
import Xv6.Lib.Keeps

/-! # Open files and their references (`file.c`, `pipe.c`, `sysfile.c`)

    The file table `ftable`, the `ofile` array of every process slot, and
    the pipes, each in the page `kalloc` gave it.  The calls are those
    that make, share and drop references: `sys_open` from `filealloc` on
    (what its path lookup does to the inode table is `Fs/Syscall`'s),
    `sys_dup`, `sys_close`, `sys_pipe` with `pipealloc`, and the file
    loops of `kfork` and `kexit`; `kexec` does not touch `ofile`.  Every
    failure path is kept: a failed `filealloc`, `fdalloc`, `kalloc`,
    `copyout` or process allocation.

    * `held`: the references a call holds in its hands, `ref` less the
      descriptors; each primitive moves it by one (`filealloc_spec`,
      `filedup_spec`, `fileclose_spec`, `held_clear`, `held_install`),
      and `FileSys.Good` holds at every point of a call;
    * one spec per call (`sys_open_spec`, `sys_dup_spec`, `sys_close_spec`,
      `sys_pipe_spec`, `kfork_spec`, `kexit_spec`): it returns, good, with
      no reference held;
    * `file_refs_exact`: between calls, `ref` is the number of
      descriptors that refer to a file, a free file is `FD_NONE`, the ends
      of a pipe are open exactly while a file for them is, and a pipe's
      page goes back to `kfree` once, when the last file for it closes. -/

set_option linter.dupNamespace false

namespace Xv6.File.Table

open Machine StateExcept
open Xv6.Mem (NPROC)
open Xv6.Fs (NFILE NOFILE NINODE O_WRONLY O_RDWR)

/-- `enum { FD_NONE, FD_PIPE, FD_INODE, FD_DEVICE }`. -/
inductive FdType where
  | FD_NONE | FD_PIPE | FD_INODE | FD_DEVICE
deriving DecidableEq, Repr

/-- `struct file`; `pipe` is the page of its pipe. -/
structure File where
  type : FdType
  ref : Nat
  readable : Bool
  writable : Bool
  pipe : Nat
  ip : Fin NINODE
  off : Nat
  major : Int16

/-- A slot of `ftable` before its first use. -/
def File.zero : File := ⟨.FD_NONE, 0, false, false, 0, ⟨0, Xv6.Fs.NINODE_pos⟩, 0, 0⟩

/-- The file table, the pipe in each page, `ofile` of every process slot
    and whether the slot holds a process (`state != UNUSED`), with three
    records the code does not keep: the pipe pages from `kalloc` in order
    (`allocs`), those not yet given back to `kfree` (`live`), and those
    given back, in order (`freed`). -/
structure FileSys where
  ftable : Fin NFILE → File
  pipes : Nat → Pipe
  ofile : Fin NPROC → Fin NOFILE → Option (Fin NFILE)
  used : Fin NPROC → Bool
  allocs : List Nat
  live : List Nat
  freed : List Nat

/-- Kernel code over the file table; an error is a `panic`. -/
abbrev FileM := StateT FileSys (Except String)

namespace FileSys

/-- The state with file `f` set to `x`. -/
def withFile (s : FileSys) (f : Fin NFILE) (x : File) : FileSys :=
  { s with ftable := Function.update s.ftable f x }

/-- The state with `ofile[d]` of process `p` set to `v`. -/
def withOfile (s : FileSys) (p : Fin NPROC) (d : Fin NOFILE) (v : Option (Fin NFILE)) : FileSys :=
  { s with ofile := Function.update s.ofile p (Function.update (s.ofile p) d v) }

end FileSys

def setFile (f : Fin NFILE) (x : File) : FileM Unit :=
  modify fun s => s.withFile f x

def setOfile (p : Fin NPROC) (d : Fin NOFILE) (v : Option (Fin NFILE)) : FileM Unit :=
  modify fun s => s.withOfile p d v

/-- `filealloc()`. -/
def filealloc : FileM (Option (Fin NFILE)) := do
  let s ← get
  match (List.finRange NFILE).find? (fun f => (s.ftable f).ref == 0) with
  | some f =>
      setFile f { s.ftable f with ref := 1 }
      return some f
  | none => return none

/-- `filedup(f)`. -/
def filedup (f : Fin NFILE) : FileM Unit := do
  let x := (← get).ftable f
  if x.ref < 1 then throw "filedup"
  setFile f { x with ref := x.ref + 1 }

/-- `kfree` of the page of a pipe. -/
def kfreePipe (pa : Nat) : FileM Unit :=
  modify fun s => { s with live := s.live.erase pa, freed := s.freed ++ [pa] }

/-- `pipeclose(pi, writable)` for the pipe in page `pa`: the page goes
    back to `kfree` once both ends are closed. -/
def pipeclose (pa : Nat) (writable : Bool) : FileM Unit := do
  let r := Xv6.File.pipeclose ((← get).pipes pa) writable
  modify fun s => { s with pipes := Function.update s.pipes pa r.1 }
  if r.2 then kfreePipe pa

/-- `fileclose(f)`: the last reference closes a pipe end; for an inode or
    a device it is `iput` in a transaction, on the inode table. -/
def fileclose (f : Fin NFILE) : FileM Unit := do
  let x := (← get).ftable f
  if x.ref < 1 then throw "fileclose"
  if x.ref - 1 > 0 then
    setFile f { x with ref := x.ref - 1 }
    return
  setFile f { x with ref := 0, type := .FD_NONE }
  if x.type = .FD_PIPE then pipeclose x.pipe x.writable

/-- `fdalloc(f)` in process `p`: the lowest free descriptor takes `f`. -/
def fdalloc (p : Fin NPROC) (f : Fin NFILE) : FileM (Option (Fin NOFILE)) := do
  let s ← get
  match (List.finRange NOFILE).find? (fun d => s.ofile p d == none) with
  | some d =>
      setOfile p d (some f)
      return some d
  | none => return none

/-- `argfd(n, &fd, &f)` in process `p`. -/
def argfd (s : FileSys) (p : Fin NPROC) (fd : Int) : Option (Fin NOFILE × Fin NFILE) :=
  if h : 0 ≤ fd ∧ fd < NOFILE then
    let d : Fin NOFILE := ⟨fd.toNat, Xv6.Fs.toNat_lt_NOFILE h⟩
    (s.ofile p d).map fun f => (d, f)
  else none

def sys_dup (p : Fin NPROC) (fd : Int) : FileM Int := do
  match argfd (← get) p fd with
  | none => return -1
  | some (_, f) =>
      match ← fdalloc p f with
      | none => return -1
      | some d =>
          filedup f
          return d.val

def sys_close (p : Fin NPROC) (fd : Int) : FileM Int := do
  match argfd (← get) p fd with
  | none => return -1
  | some (d, f) =>
      setOfile p d none
      fileclose f
      return 0

/-- `pipealloc(&f0, &f1)`, with `kalloc` giving the page `pa`, or `0`. -/
def pipealloc (pa : Option Nat) : FileM (Option (Fin NFILE × Fin NFILE)) := do
  match ← filealloc with
  | none => return none
  | some f0 =>
    match ← filealloc with
    | none =>
        fileclose f0
        return none
    | some f1 =>
      match pa with
      | none =>
          fileclose f0
          fileclose f1
          return none
      | some pa =>
          -- `kalloc` fills the page with junk
          modify fun s => { s with pipes := Function.update s.pipes pa (Xv6.File.pipealloc fun _ => 5),
                                   allocs := s.allocs ++ [pa], live := s.live ++ [pa] }
          let x0 := (← get).ftable f0
          setFile f0 { x0 with type := .FD_PIPE, readable := true, writable := false, pipe := pa }
          let x1 := (← get).ftable f1
          setFile f1 { x1 with type := .FD_PIPE, readable := false, writable := true, pipe := pa }
          return some (f0, f1)

/-- `sys_pipe()` in process `p`; `copyOk` says whether both `copyout`s of
    the descriptors succeed. -/
def sys_pipe (p : Fin NPROC) (pa : Option Nat) (copyOk : Bool) : FileM Int := do
  match ← pipealloc pa with
  | none => return -1
  | some (rf, wf) =>
    match ← fdalloc p rf with
    | none =>
        fileclose rf
        fileclose wf
        return -1
    | some fd0 =>
      match ← fdalloc p wf with
      | none =>
          setOfile p fd0 none
          fileclose rf
          fileclose wf
          return -1
      | some fd1 =>
          if copyOk then return 0
          setOfile p fd0 none
          setOfile p fd1 none
          fileclose rf
          fileclose wf
          return -1

/-- `sys_open(path, omode)` in process `p` from `filealloc` on: `target`
    is what the path lookup left, the inode held and locked with its
    `major` if it is a device, or nothing when the call failed before. -/
def sys_open (p : Fin NPROC) (target : Option (Fin NINODE × Option Int16)) (omode : Int32) :
    FileM Int := do
  match target with
  | none => return -1
  | some (ip, dev) =>
    match ← filealloc with
    | none => return -1
    | some f =>
      match ← fdalloc p f with
      | none =>
          fileclose f
          return -1
      | some fd =>
          let x := (← get).ftable f
          let x := match dev with
            | some major => { x with type := .FD_DEVICE, major := major }
            | none => { x with type := .FD_INODE, off := 0 }
          setFile f { x with ip := ip, readable := omode &&& O_WRONLY == 0,
                             writable := omode &&& O_WRONLY != 0 || omode &&& O_RDWR != 0 }
          return fd.val

/-- The file part of `kfork()` by `p`: `allocproc` takes the first
    UNUSED slot (`allocOk` says whether its allocations and `uvmcopy`
    succeed), and the child's `ofile[i]` is `filedup(p->ofile[i])`. -/
def kfork (p : Fin NPROC) (allocOk : Bool) : FileM (Option (Fin NPROC)) := do
  let s ← get
  match (List.finRange NPROC).find? (fun q => !s.used q) with
  | none => return none
  | some np =>
      if !allocOk then return none
      modify fun s => { s with used := Function.update s.used np true }
      (List.finRange NOFILE).forM fun i => do
        match (← get).ofile p i with
        | some f =>
            filedup f
            setOfile np i (some f)
        | none => pure ()
      return some np

/-- The slot of `initproc`, the process `userinit` makes first. -/
def initproc : Fin NPROC := 0

/-- The file part of `kexit()` by `p`: `initproc` may not exit; otherwise
    every open descriptor is closed, and the slot is UNUSED again once the
    parent's `kwait` frees it. -/
def kexit (p : Fin NPROC) : FileM Unit := do
  if p = initproc then throw "init exiting"
  (List.finRange NOFILE).forM fun fd => do
    match (← get).ofile p fd with
    | some f =>
        fileclose f
        setOfile p fd none
    | none => pure ()
  modify fun s => { s with used := Function.update s.used p false }

/-! ## Counting references -/

/-- The descriptors, over all processes, that refer to `f`. -/
def refs (o : Fin NPROC → Fin NOFILE → Option (Fin NFILE)) (f : Fin NFILE) : Nat :=
  ∑ p, ∑ d, if o p d = some f then 1 else 0

/-- Setting one descriptor moves one reference. -/
theorem refs_update (o : Fin NPROC → Fin NOFILE → Option (Fin NFILE)) (p : Fin NPROC)
    (d : Fin NOFILE) (v : Option (Fin NFILE)) (f : Fin NFILE) :
    refs (Function.update o p (Function.update (o p) d v)) f + (if o p d = some f then 1 else 0) =
      refs o f + (if v = some f then 1 else 0) := by
  have hrow := sum_update_add (fun y : Option (Fin NFILE) => if y = some f then 1 else 0) (o p) d v
  have htab := sum_update_add (fun row : Fin NOFILE → Option (Fin NFILE) =>
    ∑ d, if row d = some f then 1 else 0) o p (Function.update (o p) d v)
  unfold refs
  omega

/-- A descriptor that refers to `f` is counted. -/
theorem refs_pos {o : Fin NPROC → Fin NOFILE → Option (Fin NFILE)} {p : Fin NPROC} {d : Fin NOFILE}
    {f : Fin NFILE} (h : o p d = some f) : 0 < refs o f := by
  have := refs_update o p d none f
  simp only [h, if_true, reduceCtorEq, if_false] at this
  omega

namespace FileSys

variable {s : FileSys} {f g : Fin NFILE} {x : File} {p q : Fin NPROC} {d e : Fin NOFILE}
  {v : Option (Fin NFILE)}

@[simp] theorem withFile_self : (s.withFile f x).ftable f = x := Function.update_self _ _ _

theorem withFile_of_ne (h : g ≠ f) : (s.withFile f x).ftable g = s.ftable g :=
  Function.update_of_ne h _ _

@[simp] theorem withFile_ofile : (s.withFile f x).ofile = s.ofile := rfl
@[simp] theorem withFile_used : (s.withFile f x).used = s.used := rfl
@[simp] theorem withFile_pipes : (s.withFile f x).pipes = s.pipes := rfl
@[simp] theorem withFile_live : (s.withFile f x).live = s.live := rfl
@[simp] theorem withFile_allocs : (s.withFile f x).allocs = s.allocs := rfl
@[simp] theorem withFile_freed : (s.withFile f x).freed = s.freed := rfl

@[simp] theorem withOfile_ftable : (s.withOfile p d v).ftable = s.ftable := rfl
@[simp] theorem withOfile_used : (s.withOfile p d v).used = s.used := rfl
@[simp] theorem withOfile_pipes : (s.withOfile p d v).pipes = s.pipes := rfl
@[simp] theorem withOfile_live : (s.withOfile p d v).live = s.live := rfl
@[simp] theorem withOfile_allocs : (s.withOfile p d v).allocs = s.allocs := rfl
@[simp] theorem withOfile_freed : (s.withOfile p d v).freed = s.freed := rfl

theorem withOfile_ofile : (s.withOfile p d v).ofile q e = if q = p ∧ e = d then v else s.ofile q e := by
  by_cases hq : q = p
  · subst hq
    by_cases he : e = d <;> simp [withOfile, he]
  · simp [withOfile, hq]

/-- References the running call holds: `ref` less the descriptors. -/
def held (s : FileSys) (f : Fin NFILE) : Int := (s.ftable f).ref - refs s.ofile f

theorem held_withFile (f : Fin NFILE) (x : File) (g : Fin NFILE) :
    (s.withFile f x).held g = s.held g + if g = f then (x.ref : Int) - (s.ftable f).ref else 0 := by
  by_cases hg : g = f
  · subst hg
    simp only [held, withFile_self, withFile_ofile, if_true]
    omega
  · simp only [held, withFile_of_ne hg, withFile_ofile, if_neg hg, add_zero]

theorem held_withOfile (p : Fin NPROC) (d : Fin NOFILE) (v : Option (Fin NFILE)) (g : Fin NFILE) :
    (s.withOfile p d v).held g =
      s.held g + (if s.ofile p d = some g then 1 else 0) - (if v = some g then 1 else 0) := by
  have := refs_update s.ofile p d v g
  simp only [held, withOfile_ftable]
  split_ifs at this ⊢ <;> simp only [withOfile] <;> omega

/-- File `f` is an open end of the pipe in page `pa`, its write end if
    `w`. -/
def isEnd (s : FileSys) (f : Fin NFILE) (pa : Nat) (w : Bool) : Prop :=
  0 < (s.ftable f).ref ∧ (s.ftable f).type = .FD_PIPE ∧ (s.ftable f).pipe = pa ∧
    (s.ftable f).writable = w

theorem isEnd_withFile (pa : Nat) (w : Bool) :
    (s.withFile f x).isEnd g pa w ↔
      if g = f then 0 < x.ref ∧ x.type = .FD_PIPE ∧ x.pipe = pa ∧ x.writable = w
      else s.isEnd g pa w := by
  by_cases hg : g = f
  · subst hg
    simp [isEnd]
  · simp [isEnd, withFile_of_ne hg, hg]

end FileSys

/-- Whether the end of a pipe for files with `writable = w` is open:
    `writeopen` for `w`, `readopen` otherwise. -/
def endOpen (pi : Pipe) (w : Bool) : Bool := if w then pi.writeopen else pi.readopen

/-- `pipeclose` closes the end it is given and keeps the other. -/
theorem endOpen_pipeclose (pi : Pipe) (w w' : Bool) :
    endOpen (Xv6.File.pipeclose pi w).1 w' = (endOpen pi w' && w' != w) := by
  cases w <;> cases w' <;> simp [endOpen, Xv6.File.pipeclose]

/-- `pipeclose` frees the pipe when both ends are closed after it. -/
theorem pipeclose_free (pi : Pipe) (w : Bool) :
    (Xv6.File.pipeclose pi w).2 = (!endOpen (Xv6.File.pipeclose pi w).1 true &&
      !endOpen (Xv6.File.pipeclose pi w).1 false) := by
  cases w <;> simp [endOpen, Xv6.File.pipeclose]

/-- What holds of the files at every point of a call: a free file is
    `FD_NONE`, a process slot without a process has no descriptors, every
    open pipe file names a live pipe page and is its read end exactly when
    not writable, each end of a pipe has at most one open file and is open
    exactly while it has one, a live pipe has an open end, and each
    allocation of a page is matched by one `kfree` or by the page being
    live. -/
structure FileSys.Good (s : FileSys) : Prop where
  none_of_free : ∀ f, (s.ftable f).ref = 0 → (s.ftable f).type = .FD_NONE
  unused_closed : ∀ p d, s.used p = false → s.ofile p d = none
  pipe_live : ∀ f, 0 < (s.ftable f).ref → (s.ftable f).type = .FD_PIPE → (s.ftable f).pipe ∈ s.live
  pipe_mode : ∀ f, 0 < (s.ftable f).ref → (s.ftable f).type = .FD_PIPE →
    (s.ftable f).readable = !(s.ftable f).writable
  end_unique : ∀ f g pa w, s.isEnd f pa w → s.isEnd g pa w → f = g
  ends : ∀ pa ∈ s.live, ∀ w, endOpen (s.pipes pa) w = true ↔ ∃ f, s.isEnd f pa w
  live_open : ∀ pa ∈ s.live, ∃ w, endOpen (s.pipes pa) w = true
  live_nodup : s.live.Nodup
  allocs_count : ∀ pa, s.allocs.count pa = s.freed.count pa + s.live.count pa

namespace FileSys.Good

variable {s : FileSys} {f : Fin NFILE} {x : File} {p : Fin NPROC} {d : Fin NOFILE}

/-- Setting a descriptor of a process keeps the files good. -/
theorem withOfile (hs : s.Good) (hp : s.used p = true) (v : Option (Fin NFILE)) :
    (s.withOfile p d v).Good := by
  refine ⟨hs.none_of_free, fun q e hq => ?_, hs.pipe_live, hs.pipe_mode, hs.end_unique, hs.ends,
    hs.live_open, hs.live_nodup, hs.allocs_count⟩
  rw [FileSys.withOfile_ofile]
  have hqp : q ≠ p := by
    rintro rfl
    simp_all
  simp only [hqp, false_and, if_false]
  exact hs.unused_closed q e hq

/-- Changing a file in a way that keeps which pipe end it is. -/
theorem withFile (hs : s.Good) (hfree : x.ref = 0 → x.type = .FD_NONE)
    (hend : ∀ pa w, (0 < x.ref ∧ x.type = .FD_PIPE ∧ x.pipe = pa ∧ x.writable = w) ↔ s.isEnd f pa w)
    (hmode : 0 < x.ref → x.type = .FD_PIPE → x.readable = !x.writable) : (s.withFile f x).Good := by
  have hiff : ∀ g pa w, (s.withFile f x).isEnd g pa w ↔ s.isEnd g pa w := fun g pa w => by
    rw [FileSys.isEnd_withFile]
    split_ifs with hg
    · subst hg
      exact hend pa w
    · rfl
  refine ⟨fun g hg => ?_, hs.unused_closed, fun g hg ht => ?_, fun g hg ht => ?_,
    fun g g' pa w h₁ h₂ => hs.end_unique g g' pa w ((hiff _ _ _).mp h₁) ((hiff _ _ _).mp h₂),
    fun pa hpa w => ?_, hs.live_open, hs.live_nodup, hs.allocs_count⟩
  · by_cases hgf : g = f
    · subst hgf
      simp only [FileSys.withFile_self] at hg ⊢
      exact hfree hg
    · rw [FileSys.withFile_of_ne hgf] at hg ⊢
      exact hs.none_of_free g hg
  · have h' := (hiff g _ _).mp ⟨hg, ht, rfl, rfl⟩
    rw [← h'.2.2.1]
    exact hs.pipe_live g h'.1 h'.2.1
  · by_cases hgf : g = f
    · subst hgf
      simp only [FileSys.withFile_self] at hg ht ⊢
      exact hmode hg ht
    · rw [FileSys.withFile_of_ne hgf] at hg ht ⊢
      exact hs.pipe_mode g hg ht
  · simp only [FileSys.withFile_pipes]
    rw [hs.ends pa hpa w]
    exact exists_congr fun g => (hiff g pa w).symm

end FileSys.Good

/-! ## The primitives -/

section Primitives

variable {s : FileSys} {f g : Fin NFILE} {p : Fin NPROC} {d : Fin NOFILE}

theorem setFile_run (x : File) : (setFile f x).run s = .ok ((), s.withFile f x) := rfl

theorem setOfile_run (v : Option (Fin NFILE)) :
    (setOfile p d v).run s = .ok ((), s.withOfile p d v) := rfl

theorem filealloc_spec (hs : s.Good) :
    filealloc.run s = .ok (none, s) ∨
    ∃ f, (s.ftable f).ref = 0 ∧ (s.ftable f).type = .FD_NONE ∧
      filealloc.run s = .ok (some f, s.withFile f { s.ftable f with ref := 1 }) ∧
      (s.withFile f { s.ftable f with ref := 1 }).Good ∧
      ∀ g, (s.withFile f { s.ftable f with ref := 1 }).held g = s.held g + if g = f then 1 else 0 := by
  rcases hfind : (List.finRange NFILE).find? (fun f => (s.ftable f).ref == 0) with _ | f
  · left
    simp only [filealloc, StateT.run_bind, StateT.run_get, pure_bind, hfind]
    rfl
  · right
    have h0 : (s.ftable f).ref = 0 := by simpa using List.find?_some hfind
    have hnone := hs.none_of_free f h0
    refine ⟨f, h0, hnone, ?_, ?_, fun g => ?_⟩
    · simp only [filealloc, StateT.run_bind, StateT.run_get, pure_bind, hfind]
      rfl
    · -- a free file is no pipe end, before or after
      refine hs.withFile (by simp) (fun pa w => ?_) (by simp [hnone])
      simp [FileSys.isEnd, hnone, h0]
    · rw [FileSys.held_withFile]
      split_ifs <;> simp [h0]

theorem filedup_spec (hs : s.Good) (hpos : 0 < (s.ftable f).ref) :
    (filedup f).run s = .ok ((), s.withFile f { s.ftable f with ref := (s.ftable f).ref + 1 }) ∧
      (s.withFile f { s.ftable f with ref := (s.ftable f).ref + 1 }).Good ∧
      ∀ g, (s.withFile f { s.ftable f with ref := (s.ftable f).ref + 1 }).held g =
        s.held g + if g = f then 1 else 0 := by
  refine ⟨?_, hs.withFile (by simp) (fun pa w => ?_) (fun _ ht => hs.pipe_mode f hpos ht),
    fun g => ?_⟩
  · have hlt : ¬ (s.ftable f).ref < 1 := by omega
    simp only [filedup, StateT.run_bind, StateT.run_get, pure_bind, hlt, if_false]
    rfl
  · simp [FileSys.isEnd, hpos]
  · rw [FileSys.held_withFile]
    split_ifs <;> simp

theorem fdalloc_spec (p : Fin NPROC) (f : Fin NFILE) :
    (fdalloc p f).run s = .ok (none, s) ∨
    ∃ d, s.ofile p d = none ∧ (fdalloc p f).run s = .ok (some d, s.withOfile p d (some f)) := by
  rcases hfind : (List.finRange NOFILE).find? (fun d => s.ofile p d == none) with _ | d
  · left
    simp only [fdalloc, StateT.run_bind, StateT.run_get, pure_bind, hfind]
    rfl
  · right
    refine ⟨d, by simpa using List.find?_some hfind, ?_⟩
    simp only [fdalloc, StateT.run_bind, StateT.run_get, pure_bind, hfind]
    rfl

theorem argfd_some {fd : Int} (h : argfd s p fd = some (d, f)) : s.ofile p d = some f := by
  unfold argfd at h
  split at h
  · obtain ⟨f', hf', he⟩ := Option.map_eq_some_iff.mp h
    simp only [Prod.mk.injEq] at he
    obtain ⟨rfl, rfl⟩ := he
    exact hf'
  · cases h

end Primitives

section Close

variable {s : FileSys} {f : Fin NFILE} {pa : Nat} {w : Bool}

/-- **LAST CLOSE**: when the last reference of the end `w` of the pipe
    in page `pa` goes, `pipeclose` closes that end, and gives the page
    back to `kfree` if the other end is closed too; the files stay good. -/
theorem pipeclose_last (hs : s.Good) (hf : s.isEnd f pa w) :
    ∃ s', (pipeclose pa w).run (s.withFile f { s.ftable f with ref := 0, type := .FD_NONE }) =
      .ok ((), s') ∧ s'.Good ∧ s'.ofile = s.ofile ∧ s'.used = s.used ∧
      s'.ftable = (s.withFile f { s.ftable f with ref := 0, type := .FD_NONE }).ftable := by
  obtain ⟨hpos, htype, hpipe, hw⟩ := hf
  set s₁ := s.withFile f { s.ftable f with ref := 0, type := .FD_NONE } with hs₁
  have hpa : pa ∈ s.live := hpipe ▸ hs.pipe_live f hpos htype
  -- after `f` is closed the open ends are the others
  have hend₁ : ∀ g pa' w', s₁.isEnd g pa' w' ↔ s.isEnd g pa' w' ∧ g ≠ f := fun g pa' w' => by
    rw [hs₁, FileSys.isEnd_withFile]
    split_ifs with hg <;> simp [hg]
  have hnone : ∀ g, ¬ s₁.isEnd g pa w := fun g hg => by
    obtain ⟨hg', hne⟩ := (hend₁ g pa w).mp hg
    exact hne (hs.end_unique g f pa w hg' ⟨hpos, htype, hpipe, hw⟩)
  have hopen : ∀ w', endOpen (Xv6.File.pipeclose (s.pipes pa) w).1 w' = true ↔
      ∃ g, s₁.isEnd g pa w' := fun w' => by
    rw [endOpen_pipeclose]
    by_cases hww : w' = w
    · subst hww
      simp only [bne_self_eq_false, Bool.and_false, Bool.false_eq_true, false_iff, not_exists]
      exact hnone
    · have hne : (w' != w) = true := by simpa using hww
      rw [hne, Bool.and_true, hs.ends pa hpa w']
      refine exists_congr fun g => ⟨fun hg => (hend₁ g pa w').mpr ⟨hg, ?_⟩,
        fun hg => ((hend₁ g pa w').mp hg).1⟩
      rintro rfl
      exact hww (hg.2.2.2.symm.trans hw)
  -- pipes other than `pa` keep their ends
  have hother : ∀ pa', pa' ≠ pa → ∀ g w', s₁.isEnd g pa' w' ↔ s.isEnd g pa' w' :=
    fun pa' hne g w' => by
      rw [hend₁]
      refine ⟨And.left, fun hg => ⟨hg, ?_⟩⟩
      rintro rfl
      exact hne (hg.2.2.1.symm.trans hpipe)
  -- what holds of the files after `f` is closed, whatever becomes of the pipe
  have hfree₁ : ∀ g, (s₁.ftable g).ref = 0 → (s₁.ftable g).type = .FD_NONE := fun g hg => by
    by_cases hgf : g = f
    · subst hgf
      simp [hs₁]
    · rw [hs₁, FileSys.withFile_of_ne hgf] at hg ⊢
      exact hs.none_of_free g hg
  have hopen₁ : ∀ g, 0 < (s₁.ftable g).ref → (s₁.ftable g).type = .FD_PIPE →
      s₁.isEnd g (s₁.ftable g).pipe (s₁.ftable g).writable := fun g hg ht => ⟨hg, ht, rfl, rfl⟩
  have hmode₁ : ∀ g, 0 < (s₁.ftable g).ref → (s₁.ftable g).type = .FD_PIPE →
      (s₁.ftable g).readable = !(s₁.ftable g).writable := fun g hg ht => by
    have hgf : g ≠ f := ((hend₁ _ _ _).mp (hopen₁ g hg ht)).2
    rw [hs₁, FileSys.withFile_of_ne hgf] at hg ht ⊢
    exact hs.pipe_mode g hg ht
  have hpipes₁ : s₁.pipes = s.pipes := rfl
  have hallocs₁ : s₁.allocs = s.allocs := rfl
  have hunique₁ : ∀ g g' pa' w', s₁.isEnd g pa' w' → s₁.isEnd g' pa' w' → g = g' :=
    fun g g' pa' w' h₁ h₂ => hs.end_unique g g' pa' w' ((hend₁ _ _ _).mp h₁).1 ((hend₁ _ _ _).mp h₂).1
  rcases hfree : (Xv6.File.pipeclose (s.pipes pa) w).2 with _ | _
  · -- the other end is still open: the page stays
    refine ⟨{ s₁ with pipes := Function.update s₁.pipes pa (Xv6.File.pipeclose (s.pipes pa) w).1 },
      ?_, ⟨hfree₁, hs.unused_closed, fun g hg ht => ?_, hmode₁, hunique₁, fun pa' hpa' w' => ?_,
        fun pa' hpa' => ?_, hs.live_nodup, hs.allocs_count⟩, rfl, rfl, rfl⟩
    · simp only [pipeclose, StateT.run_bind, StateT.run_get, pure_bind, hs₁,
        FileSys.withFile_pipes, hfree]
      rfl
    · have h' := (hend₁ _ _ _).mp (hopen₁ g hg ht)
      exact h'.1.2.2.1 ▸ hs.pipe_live g h'.1.1 h'.1.2.1
    · by_cases hp : pa' = pa
      · subst hp
        simp only [Function.update_self]
        exact hopen w'
      · simp only [Function.update_of_ne hp, hpipes₁]
        rw [hs.ends pa' hpa' w']
        exact exists_congr fun g => (hother pa' hp g w').symm
    · by_cases hp : pa' = pa
      · subst hp
        rw [pipeclose_free] at hfree
        simp only [Function.update_self]
        cases h₁ : endOpen (Xv6.File.pipeclose (s.pipes pa') w).1 true
        · rw [h₁] at hfree
          simp only [Bool.not_false, Bool.true_and, Bool.not_eq_false'] at hfree
          exact ⟨false, hfree⟩
        · exact ⟨true, h₁⟩
      · simp only [Function.update_of_ne hp, hpipes₁]
        exact hs.live_open pa' hpa'
  · -- both ends are closed: the page goes back to `kfree`, and no open file names it
    have hgone : ∀ g w', ¬ s₁.isEnd g pa w' := fun g w' hg => by
      have hclosed := hfree
      rw [pipeclose_free] at hclosed
      have h₁ := (hopen w').mpr ⟨g, hg⟩
      cases w' <;> simp_all
    refine ⟨{ s₁ with pipes := Function.update s₁.pipes pa (Xv6.File.pipeclose (s.pipes pa) w).1,
                      live := s.live.erase pa, freed := s.freed ++ [pa] },
      ?_, ⟨hfree₁, hs.unused_closed, fun g hg ht => ?_, hmode₁, hunique₁, fun pa' hpa' w' => ?_,
        fun pa' hpa' => ?_, hs.live_nodup.erase pa, fun pa' => ?_⟩, rfl, rfl, rfl⟩
    · simp only [pipeclose, kfreePipe, StateT.run_bind, StateT.run_get, pure_bind, hs₁,
        FileSys.withFile_pipes, hfree]
      rfl
    · have h' := hopen₁ g hg ht
      have hne : (s₁.ftable g).pipe ≠ pa := fun he => hgone g _ (he ▸ h')
      have h'' := ((hend₁ _ _ _).mp h').1
      exact (List.mem_erase_of_ne hne).mpr (h''.2.2.1 ▸ hs.pipe_live g h''.1 h''.2.1)
    · have hp : pa' ≠ pa := ((hs.live_nodup.mem_erase_iff).mp hpa').1
      simp only [Function.update_of_ne hp, hpipes₁]
      rw [hs.ends pa' ((hs.live_nodup.mem_erase_iff).mp hpa').2 w']
      exact exists_congr fun g => (hother pa' hp g w').symm
    · have hp : pa' ≠ pa := ((hs.live_nodup.mem_erase_iff).mp hpa').1
      simp only [Function.update_of_ne hp, hpipes₁]
      exact hs.live_open pa' ((hs.live_nodup.mem_erase_iff).mp hpa').2
    · have hc := hs.allocs_count pa'
      rw [hallocs₁, List.count_append, List.count_erase, List.count_singleton]
      by_cases hp : pa = pa'
      · subst hp
        have h1 : 0 < s.live.count pa := List.count_pos_iff.mpr hpa
        simp only [beq_self_eq_true, if_true]
        omega
      · simp only [hp, if_false, beq_iff_eq]
        omega

theorem fileclose_spec (hs : s.Good) (hpos : 0 < (s.ftable f).ref) :
    ∃ s', (fileclose f).run s = .ok ((), s') ∧ s'.Good ∧ s'.ofile = s.ofile ∧ s'.used = s.used ∧
      ∀ g, s'.held g = s.held g - if g = f then 1 else 0 := by
  have hlt : ¬ (s.ftable f).ref < 1 := by omega
  by_cases hmore : (s.ftable f).ref - 1 > 0
  · -- another reference remains
    refine ⟨s.withFile f { s.ftable f with ref := (s.ftable f).ref - 1 }, ?_,
      hs.withFile (fun h => absurd h (Nat.pos_iff_ne_zero.mp hmore))
        (fun pa w => ⟨fun ⟨_, h⟩ => ⟨hpos, h⟩, fun ⟨_, h⟩ => ⟨hmore, h⟩⟩)
        (fun _ ht => hs.pipe_mode f hpos ht), rfl, rfl, fun g => ?_⟩
    · simp only [fileclose, StateT.run_bind, StateT.run_get, pure_bind, hlt, if_false, hmore,
        if_true]
      rfl
    · rw [FileSys.held_withFile]
      split_ifs
      · dsimp only
        omega
      · simp
  · -- the last reference: the file becomes free
    have h1 : (s.ftable f).ref = 1 := by omega
    have hheld : ∀ g, (s.withFile f { s.ftable f with ref := 0, type := .FD_NONE }).held g =
        s.held g - if g = f then 1 else 0 := fun g => by
      rw [FileSys.held_withFile]
      split_ifs
      · simp [h1]
        omega
      · simp
    have hrun : ∀ {s' : FileSys}, (if (s.ftable f).type = .FD_PIPE then
        pipeclose (s.ftable f).pipe (s.ftable f).writable else pure ()).run
          (s.withFile f { s.ftable f with ref := 0, type := .FD_NONE }) = .ok ((), s') →
        (fileclose f).run s = .ok ((), s') := fun h => by
      simp only [fileclose, StateT.run_bind, StateT.run_get, pure_bind, hlt, if_false, hmore]
      exact h
    by_cases htype : (s.ftable f).type = .FD_PIPE
    · obtain ⟨s', hclose, hgood, hofile, hused, hft⟩ :=
        pipeclose_last hs (f := f) ⟨hpos, htype, rfl, rfl⟩
      refine ⟨s', hrun (by rw [if_pos htype]; exact hclose), hgood, hofile, hused, fun g => ?_⟩
      rw [← hheld g]
      simp only [FileSys.held, hft, hofile, FileSys.withFile_ofile]
    · refine ⟨s.withFile f { s.ftable f with ref := 0, type := .FD_NONE },
        hrun (by rw [if_neg htype]; rfl),
        hs.withFile (fun _ => rfl) (fun pa w => ?_) (by simp), rfl, rfl, hheld⟩
      simp [FileSys.isEnd, htype]

end Close

/-! ## The calls -/

/-- Between calls the files are good and no call holds a reference:
    `ref` is exactly the number of descriptors. -/
structure FileSys.Inv (s : FileSys) : Prop where
  good : s.Good
  exact : ∀ f, s.held f = 0

section Calls

variable {s : FileSys} {f : Fin NFILE} {p : Fin NPROC} {d : Fin NOFILE}

theorem ref_pos_of_held (h : 0 < s.held f) : 0 < (s.ftable f).ref := by
  unfold FileSys.held at h
  omega

theorem ref_pos_of_slot (h : 0 ≤ s.held f) (hslot : s.ofile p d = some f) : 0 < (s.ftable f).ref := by
  have := refs_pos hslot
  unfold FileSys.held at h
  omega

/-- A descriptor is only in a slot that holds a process. -/
theorem used_of_slot (hs : s.Good) (hslot : s.ofile p d = some f) : s.used p = true := by
  by_contra h
  rw [hs.unused_closed p d (by simpa using h)] at hslot
  cases hslot

theorem held_clear (hslot : s.ofile p d = some f) (g : Fin NFILE) :
    (s.withOfile p d none).held g = s.held g + if g = f then 1 else 0 := by
  rw [FileSys.held_withOfile, hslot]
  by_cases hg : g = f
  · subst hg
    simp
  · simp [Ne.symm hg, hg]

theorem held_install (hslot : s.ofile p d = none) (g : Fin NFILE) :
    (s.withOfile p d (some f)).held g = s.held g - if g = f then 1 else 0 := by
  rw [FileSys.held_withOfile, hslot]
  by_cases hg : g = f
  · subst hg
    simp
  · simp [Ne.symm hg, hg]

theorem sys_close_spec (hs : s.Inv) (hp : s.used p = true) (fd : Int) :
    ∃ r s', (sys_close p fd).run s = .ok (r, s') ∧ s'.Inv ∧ s'.used = s.used := by
  rcases ha : argfd s p fd with _ | ⟨d, f⟩
  · refine ⟨-1, s, ?_, hs, rfl⟩
    simp only [sys_close, StateT.run_bind, StateT.run_get, pure_bind, ha]
    rfl
  · -- the descriptor goes, and the call holds its reference until `fileclose`
    have hslot := argfd_some ha
    have hheld₁ := held_clear hslot
    have hpos : 0 < ((s.withOfile p d none).ftable f).ref :=
      ref_pos_of_held (by rw [hheld₁, hs.exact]; simp)
    obtain ⟨s', hrun, hgood, -, hused, hheld'⟩ := fileclose_spec (hs.good.withOfile hp none) hpos
    refine ⟨0, s', ?_, ⟨hgood, fun g => ?_⟩, hused⟩
    · simp only [sys_close, StateT.run_bind, StateT.run_get, pure_bind, ha, setOfile_run, ok_bind,
        hrun]
      rfl
    · rw [hheld', hheld₁, hs.exact]
      split_ifs <;> simp

theorem sys_dup_spec (hs : s.Inv) (hp : s.used p = true) (fd : Int) :
    ∃ r s', (sys_dup p fd).run s = .ok (r, s') ∧ s'.Inv ∧ s'.used = s.used := by
  rcases ha : argfd s p fd with _ | ⟨d, f⟩
  · refine ⟨-1, s, ?_, hs, rfl⟩
    simp only [sys_dup, StateT.run_bind, StateT.run_get, pure_bind, ha]
    rfl
  · have hslot := argfd_some ha
    rcases fdalloc_spec (s := s) p f with hrun | ⟨d', hfree, hrun⟩
    · refine ⟨-1, s, ?_, hs, rfl⟩
      simp only [sys_dup, StateT.run_bind, StateT.run_get, pure_bind, ha, hrun, ok_bind]
      rfl
    · -- the new descriptor is installed first, then `filedup` counts it
      have hpos : 0 < ((s.withOfile p d' (some f)).ftable f).ref :=
        ref_pos_of_slot (s := s) (by rw [hs.exact]) hslot
      obtain ⟨hdup, hgood, hheld⟩ := filedup_spec (hs.good.withOfile hp (some f)) hpos
      refine ⟨d'.val, _, ?_, ⟨hgood, fun g => ?_⟩, rfl⟩
      · simp only [sys_dup, StateT.run_bind, StateT.run_get, pure_bind, ha, hrun, ok_bind, hdup]
        rfl
      · rw [hheld, held_install hfree, hs.exact]
        split_ifs <;> simp

/-- Giving a fresh `FD_NONE` file an inode or a device keeps the files good:
    it is no pipe end before or after. -/
theorem good_withFile_nonpipe {x : File} (hs : s.Good) (hnone : (s.ftable f).type = .FD_NONE)
    (hpos : 0 < x.ref) (ht : x.type ≠ .FD_PIPE) : (s.withFile f x).Good :=
  hs.withFile (fun h => absurd h (Nat.pos_iff_ne_zero.mp hpos))
    (fun _ _ => ⟨fun h => absurd h.2.1 ht, fun h => absurd h.2.1 (by rw [hnone]; decide)⟩)
    (fun _ h => absurd h ht)

theorem sys_open_spec (hs : s.Inv) (hp : s.used p = true) (target : Option (Fin NINODE × Option Int16))
    (omode : Int32) :
    ∃ r s', (sys_open p target omode).run s = .ok (r, s') ∧ s'.Inv ∧ s'.used = s.used := by
  rcases target with _ | ⟨ip, dev⟩
  · exact ⟨-1, s, rfl, hs, rfl⟩
  rcases filealloc_spec hs.good with hrun | ⟨f, h0, hnone, hrun, hgood₁, hheld₁⟩
  · refine ⟨-1, s, ?_, hs, rfl⟩
    simp only [sys_open, StateT.run_bind, hrun, ok_bind]
    rfl
  set s₁ := s.withFile f { s.ftable f with ref := 1 }
  have href₁ : (s₁.ftable f).ref = 1 := by simp [s₁]
  rcases fdalloc_spec (s := s₁) p f with hrun₂ | ⟨fd, hfree, hrun₂⟩
  · -- no descriptor is free: the new file is closed again
    obtain ⟨s', hclose, hgood', -, hused', hheld'⟩ := fileclose_spec (f := f) hgood₁ (by omega)
    refine ⟨-1, s', ?_, ⟨hgood', fun g => ?_⟩, hused'⟩
    · simp only [sys_open, StateT.run_bind, hrun, ok_bind, hrun₂, hclose]
      rfl
    · rw [hheld', hheld₁, hs.exact]
      split_ifs <;> simp
  · -- the file becomes the inode's or the device's, keeping its one reference
    set s₂ := s₁.withOfile p fd (some f)
    obtain ⟨x, hrun₃, hx, htype⟩ : ∃ x : File,
        (sys_open p (some (ip, dev)) omode).run s = .ok (fd.val, s₂.withFile f x) ∧
          x.ref = 1 ∧ x.type ≠ .FD_PIPE := by
      rcases dev with _ | major <;>
        exact ⟨_, by simp only [sys_open, StateT.run_bind, hrun, ok_bind, hrun₂, StateT.run_get,
          pure_bind]; rfl, by simp [s₂, s₁], by simp⟩
    have hgood₂ : s₂.Good := hgood₁.withOfile hp (some f)
    refine ⟨fd.val, _, hrun₃,
      ⟨good_withFile_nonpipe hgood₂ (by simpa [s₂, s₁] using hnone) (by omega) htype, fun g => ?_⟩,
      rfl⟩
    rw [FileSys.held_withFile, held_install hfree, hheld₁, hs.exact]
    simp only [s₂, FileSys.withOfile_ftable, href₁, hx]
    split_ifs <;> simp

/-! ### A new pipe -/

/-- The files after the `kalloc` branch of `pipealloc` made the pipe in
    page `pa`: `f0` is its read end and `f1` its write end. -/
def FileSys.withPipe (s : FileSys) (pa : Nat) (f0 f1 : Fin NFILE) : FileSys :=
  let s := { s with pipes := Function.update s.pipes pa (Xv6.File.pipealloc fun _ => 5),
                    allocs := s.allocs ++ [pa], live := s.live ++ [pa] }
  let s := s.withFile f0
    { s.ftable f0 with type := .FD_PIPE, readable := true, writable := false, pipe := pa }
  s.withFile f1 { s.ftable f1 with type := .FD_PIPE, readable := false, writable := true, pipe := pa }

section Pipe

variable {s : FileSys} {pa : Nat} {f0 f1 : Fin NFILE}

/-- Both ends of a fresh pipe are open. -/
theorem endOpen_fresh (w : Bool) : endOpen (Xv6.File.pipealloc fun _ => 5) w = true := by
  cases w <;> rfl

theorem withPipe_ftable (hne : f0 ≠ f1) (g : Fin NFILE) :
    (s.withPipe pa f0 f1).ftable g =
      if g = f1 then
        { s.ftable f1 with type := .FD_PIPE, readable := false, writable := true, pipe := pa }
      else if g = f0 then
        { s.ftable f0 with type := .FD_PIPE, readable := true, writable := false, pipe := pa }
      else s.ftable g := by
  by_cases h1 : g = f1
  · subst h1
    simp [FileSys.withPipe, FileSys.withFile_of_ne (Ne.symm hne)]
  · by_cases h0 : g = f0
    · subst h0
      simp [FileSys.withPipe, FileSys.withFile_of_ne h1, h1]
    · simp [FileSys.withPipe, FileSys.withFile_of_ne h1, FileSys.withFile_of_ne h0, h0, h1]

@[simp] theorem withPipe_ofile : (s.withPipe pa f0 f1).ofile = s.ofile := rfl
@[simp] theorem withPipe_used : (s.withPipe pa f0 f1).used = s.used := rfl

/-- Making the pipe moves no reference. -/
theorem held_withPipe (hne : f0 ≠ f1) (g : Fin NFILE) : (s.withPipe pa f0 f1).held g = s.held g := by
  simp only [FileSys.held, withPipe_ftable hne, withPipe_ofile]
  split_ifs with h1 h0
  · rw [h1]
  · rw [h0]
  · rfl

/-- The ends after `pipealloc`: the two new files for page `pa`, and the
    old ends for every other page. -/
theorem isEnd_withPipe (hs : s.Good) (hne : f0 ≠ f1) (hn0 : (s.ftable f0).type = .FD_NONE)
    (hn1 : (s.ftable f1).type = .FD_NONE) (hr0 : 0 < (s.ftable f0).ref)
    (hr1 : 0 < (s.ftable f1).ref) (hpa : pa ∉ s.live) (g : Fin NFILE) (pa' : Nat) (w : Bool) :
    (s.withPipe pa f0 f1).isEnd g pa' w ↔
      (g = f0 ∧ pa' = pa ∧ w = false) ∨ (g = f1 ∧ pa' = pa ∧ w = true) ∨
        (s.isEnd g pa' w ∧ pa' ≠ pa) := by
  unfold FileSys.isEnd
  rw [withPipe_ftable hne]
  by_cases h1 : g = f1
  · subst h1
    simp [hr1, Ne.symm hne, hn1, eq_comm]
  · by_cases h0 : g = f0
    · subst h0
      simp [hr0, h1, hn0, eq_comm]
    · -- an old file that names a pipe names a live page, so not `pa`
      simp only [h1, h0, if_false, false_and, false_or]
      constructor
      · rintro ⟨hr, ht, rfl, hw⟩
        exact ⟨⟨hr, ht, rfl, hw⟩, fun h => hpa (h ▸ hs.pipe_live g hr ht)⟩
      · exact And.left

/-- `pipealloc` makes a good pipe: a page that was not live, with two
    allocated files as its only ends. -/
theorem good_withPipe (hs : s.Good) (hne : f0 ≠ f1) (hn0 : (s.ftable f0).type = .FD_NONE)
    (hn1 : (s.ftable f1).type = .FD_NONE) (hr0 : 0 < (s.ftable f0).ref)
    (hr1 : 0 < (s.ftable f1).ref) (hpa : pa ∉ s.live) : (s.withPipe pa f0 f1).Good := by
  have hend := isEnd_withPipe hs hne hn0 hn1 hr0 hr1 hpa
  have hlive : (s.withPipe pa f0 f1).live = s.live ++ [pa] := rfl
  have hpipes : (s.withPipe pa f0 f1).pipes =
      Function.update s.pipes pa (Xv6.File.pipealloc fun _ => 5) := rfl
  refine ⟨fun g hg => ?_, hs.unused_closed, fun g hg ht => ?_, fun g hg ht => ?_,
    fun g g' pa' w h₁ h₂ => ?_, fun pa' hpa' w => ?_, fun pa' hpa' => ?_, ?_, fun pa' => ?_⟩
  · rw [withPipe_ftable hne] at hg ⊢
    split_ifs at hg ⊢
    · dsimp only at hg
      omega
    · dsimp only at hg
      omega
    · exact hs.none_of_free g hg
  · rw [hlive]
    rw [withPipe_ftable hne] at hg ht ⊢
    split_ifs at hg ht ⊢
    · simp
    · simp
    · exact List.mem_append_left _ (hs.pipe_live g hg ht)
  · rw [withPipe_ftable hne] at hg ht ⊢
    split_ifs at hg ht ⊢
    · rfl
    · rfl
    · exact hs.pipe_mode g hg ht
  · rw [hend] at h₁ h₂
    -- the new ends differ in `w`, and old ends are of other pages
    rcases h₁ with ⟨rfl, rfl, rfl⟩ | ⟨rfl, rfl, rfl⟩ | ⟨h₁, hne₁⟩ <;>
      rcases h₂ with ⟨rfl, hp₂, hw₂⟩ | ⟨rfl, hp₂, hw₂⟩ | ⟨h₂, hne₂⟩ <;>
      first
        | rfl
        | exact absurd hw₂ (by decide)
        | exact absurd rfl hne₂
        | exact absurd hp₂ hne₁
        | exact hs.end_unique g g' pa' w h₁ h₂
  · rw [hpipes]
    simp only [hend]
    by_cases hp : pa' = pa
    · subst hp
      simp only [Function.update_self, endOpen_fresh, ne_eq, not_true_eq_false, and_false, or_false,
        true_and, true_iff]
      cases w
      · exact ⟨f0, Or.inl ⟨rfl, rfl⟩⟩
      · exact ⟨f1, Or.inr ⟨rfl, rfl⟩⟩
    · have hold : pa' ∈ s.live := by simpa [hlive, hp] using hpa'
      simp only [Function.update_of_ne hp, hp, false_and, and_false, false_or, ne_eq,
        not_false_eq_true, and_true]
      exact hs.ends pa' hold w
  · rw [hpipes]
    by_cases hp : pa' = pa
    · subst hp
      exact ⟨true, by simp [endOpen_fresh]⟩
    · rw [Function.update_of_ne hp]
      exact hs.live_open pa' (by simpa [hlive, hp] using hpa')
  · rw [hlive]
    exact hs.live_nodup.append (List.nodup_singleton pa) (by simpa using hpa)
  · show (s.allocs ++ [pa]).count pa' = s.freed.count pa' + (s.live ++ [pa]).count pa'
    rw [List.count_append, List.count_append, hs.allocs_count pa']
    omega

end Pipe

/-! ### Rollbacks and `sys_pipe` -/

section Rollback

variable {s t : FileSys} {f g : Fin NFILE} {p : Fin NPROC}

/-- The rollback of a call that holds one reference, to `f`, and closes
    it: no reference is held after. -/
theorem fileclose_one (ht : t.Good) (hheld : ∀ h, t.held h = if h = f then 1 else 0) :
    ∃ t₁, (fileclose f).run t = .ok ((), t₁) ∧ t₁.Inv ∧ t₁.used = t.used := by
  obtain ⟨t₁, hrun, hgood, -, hused, hheld₁⟩ :=
    fileclose_spec ht (ref_pos_of_held (f := f) (by simp [hheld]))
  exact ⟨t₁, hrun, ⟨hgood, fun h => by rw [hheld₁, hheld, sub_self]⟩, hused⟩

/-- The rollback of `pipealloc` and `sys_pipe`: the call holds one
    reference to each of two files and closes both. -/
theorem fileclose_both (ht : t.Good) (hne : f ≠ g)
    (hheld : ∀ h, t.held h = (if h = f then 1 else 0) + (if h = g then 1 else 0)) :
    ∃ t₁ t₂, (fileclose f).run t = .ok ((), t₁) ∧ (fileclose g).run t₁ = .ok ((), t₂) ∧
      t₂.Inv ∧ t₂.used = t.used := by
  obtain ⟨t₁, hrun₁, hgood₁, -, hused₁, hheld₁⟩ :=
    fileclose_spec ht (ref_pos_of_held (f := f) (by simp [hheld, hne]))
  have hheld₁' : ∀ h, t₁.held h = if h = g then 1 else 0 := fun h => by
    rw [hheld₁, hheld]
    split_ifs <;> omega
  obtain ⟨t₂, hrun₂, hinv, hused₂⟩ := fileclose_one hgood₁ hheld₁'
  exact ⟨t₁, t₂, hrun₁, hrun₂, hinv, hused₂.trans hused₁⟩

theorem pipealloc_spec (hs : s.Inv) (pa : Option Nat) (hpa : ∀ q ∈ pa, q ∉ s.live) :
    (∃ s', (pipealloc pa).run s = .ok (none, s') ∧ s'.Inv ∧ s'.used = s.used) ∨
      ∃ f0 f1 s', f0 ≠ f1 ∧ (pipealloc pa).run s = .ok (some (f0, f1), s') ∧ s'.Good ∧
        s'.used = s.used ∧ ∀ h, s'.held h = (if h = f0 then 1 else 0) + (if h = f1 then 1 else 0) := by
  rcases filealloc_spec hs.good with hrun | ⟨f0, h00, hn0, hrun, hgood₁, hheld₁⟩
  · refine Or.inl ⟨s, ?_, hs, rfl⟩
    simp only [pipealloc, StateT.run_bind, hrun, ok_bind]
    rfl
  set s₁ := s.withFile f0 { s.ftable f0 with ref := 1 }
  rcases filealloc_spec hgood₁ with hrun₂ | ⟨f1, h10, hn1, hrun₂, hgood₂, hheld₂⟩
  · -- no second file: the first is closed again
    obtain ⟨s', hclose, hinv, hused⟩ :=
      fileclose_one (f := f0) hgood₁ (fun h => by rw [hheld₁, hs.exact, zero_add])
    refine Or.inl ⟨s', ?_, hinv, hused⟩
    simp only [pipealloc, StateT.run_bind, hrun, ok_bind, hrun₂, hclose]
    rfl
  set s₂ := s₁.withFile f1 { s₁.ftable f1 with ref := 1 }
  have hne : f0 ≠ f1 := by
    rintro rfl
    simp [s₁] at h10
  have hheld₂' : ∀ h, s₂.held h = (if h = f0 then 1 else 0) + (if h = f1 then 1 else 0) :=
    fun h => by rw [hheld₂, hheld₁, hs.exact, zero_add]
  rcases pa with _ | pa
  · -- `kalloc` failed: both files are closed again
    obtain ⟨_, s', hclose₁, hclose₂, hinv, hused⟩ := fileclose_both hgood₂ hne hheld₂'
    refine Or.inl ⟨s', ?_, hinv, hused⟩
    simp only [pipealloc, StateT.run_bind, hrun, ok_bind, hrun₂, hclose₁, hclose₂]
    rfl
  · have hf0 : s₂.ftable f0 = { s.ftable f0 with ref := 1 } := by
      simp [s₂, s₁, FileSys.withFile_of_ne hne]
    have hf1 : s₂.ftable f1 = { s₁.ftable f1 with ref := 1 } := by simp [s₂]
    refine Or.inr ⟨f0, f1, s₂.withPipe pa f0 f1, hne, ?_,
      good_withPipe hgood₂ hne (by rw [hf0]; exact hn0) (by rw [hf1]; exact hn1) (by simp [hf0])
        (by simp [hf1]) (hpa pa rfl), rfl, fun h => by rw [held_withPipe hne, hheld₂']⟩
    simp only [pipealloc, StateT.run_bind, hrun, ok_bind, hrun₂]
    rfl

theorem sys_pipe_spec (hs : s.Inv) (hp : s.used p = true) (pa : Option Nat)
    (hpa : ∀ q ∈ pa, q ∉ s.live) (copyOk : Bool) :
    ∃ r s', (sys_pipe p pa copyOk).run s = .ok (r, s') ∧ s'.Inv ∧ s'.used = s.used := by
  rcases pipealloc_spec hs pa hpa with ⟨s₁, hrun, hinv, hused⟩ |
    ⟨rf, wf, s₁, hne, hrun, hgood₁, hused₁, hheld₁⟩
  · refine ⟨-1, s₁, ?_, hinv, hused⟩
    simp only [sys_pipe, StateT.run_bind, hrun, ok_bind]
    rfl
  have hp₁ : s₁.used p = true := hused₁ ▸ hp
  rcases fdalloc_spec (s := s₁) p rf with hrun₂ | ⟨fd0, hfree₀, hrun₂⟩
  · -- no descriptor for the read end
    obtain ⟨_, s', hc₁, hc₂, hinv, hused⟩ := fileclose_both hgood₁ hne hheld₁
    refine ⟨-1, s', ?_, hinv, hused.trans hused₁⟩
    simp only [sys_pipe, StateT.run_bind, hrun, ok_bind, hrun₂, hc₁, hc₂]
    rfl
  set s₂ := s₁.withOfile p fd0 (some rf)
  have hgood₂ : s₂.Good := hgood₁.withOfile hp₁ _
  have hslot₀ : s₂.ofile p fd0 = some rf := by simp [s₂, FileSys.withOfile_ofile]
  rcases fdalloc_spec (s := s₂) p wf with hrun₃ | ⟨fd1, hfree₁, hrun₃⟩
  · -- no descriptor for the write end: the first is taken back
    have hheld : ∀ h, (s₂.withOfile p fd0 none).held h =
        (if h = rf then 1 else 0) + (if h = wf then 1 else 0) := fun h => by
      rw [held_clear hslot₀, held_install hfree₀, hheld₁]
      split_ifs <;> omega
    obtain ⟨_, s', hc₁, hc₂, hinv, hused⟩ := fileclose_both (hgood₂.withOfile hp₁ none) hne hheld
    refine ⟨-1, s', ?_, hinv, hused.trans hused₁⟩
    simp only [sys_pipe, StateT.run_bind, hrun, ok_bind, hrun₂, hrun₃, setOfile_run, hc₁, hc₂]
    rfl
  set s₃ := s₂.withOfile p fd1 (some wf)
  have hgood₃ : s₃.Good := hgood₂.withOfile hp₁ _
  have hheld₃ : ∀ h, s₃.held h = 0 := fun h => by
    rw [held_install hfree₁, held_install hfree₀, hheld₁]
    split_ifs <;> omega
  cases copyOk
  · -- `copyout` failed: both descriptors are taken back and both files closed
    have hne01 : fd0 ≠ fd1 := by
      rintro rfl
      rw [hslot₀] at hfree₁
      cases hfree₁
    have hslot₀' : s₃.ofile p fd0 = some rf := by
      simp [s₃, FileSys.withOfile_ofile, hne01, hslot₀]
    have hslot₁ : (s₃.withOfile p fd0 none).ofile p fd1 = some wf := by
      simp [s₃, FileSys.withOfile_ofile, Ne.symm hne01]
    have hheld : ∀ h, ((s₃.withOfile p fd0 none).withOfile p fd1 none).held h =
        (if h = rf then 1 else 0) + (if h = wf then 1 else 0) := fun h => by
      rw [held_clear hslot₁, held_clear hslot₀', hheld₃]
      split_ifs <;> omega
    obtain ⟨_, s', hc₁, hc₂, hinv, hused⟩ :=
      fileclose_both ((hgood₃.withOfile hp₁ none).withOfile hp₁ none) hne hheld
    refine ⟨-1, s', ?_, hinv, hused.trans hused₁⟩
    simp only [sys_pipe, StateT.run_bind, hrun, ok_bind, hrun₂, hrun₃, Bool.false_eq_true,
      if_false, setOfile_run, hc₁, hc₂]
    rfl
  · refine ⟨0, s₃, ?_, ⟨hgood₃, hheld₃⟩, hused₁⟩
    simp only [sys_pipe, StateT.run_bind, hrun, ok_bind, hrun₂, hrun₃]
    rfl

end Rollback

/-! ### `kfork` and `kexit` -/

section Proc

variable {s t : FileSys} {p np : Fin NPROC}

/-- Marking a slot used, or unused once it has no descriptors, keeps the
    files good. -/
theorem good_withUsed (hs : s.Good) (q : Fin NPROC) (b : Bool)
    (hb : b = false → ∀ d, s.ofile q d = none) :
    { s with used := Function.update s.used q b }.Good := by
  refine ⟨hs.none_of_free, fun r d hr => ?_, hs.pipe_live, hs.pipe_mode, hs.end_unique, hs.ends,
    hs.live_open, hs.live_nodup, hs.allocs_count⟩
  by_cases hrq : r = q
  · subst hrq
    exact hb (by simpa using hr) d
  · exact hs.unused_closed r d (by simpa [hrq] using hr)

/-- What the loop of `kfork` keeps: the child's descriptors still to be
    copied are empty. -/
structure ForkLoop (p np : Fin NPROC) (l : List (Fin NOFILE)) (t : FileSys) : Prop where
  inv : t.Inv
  used : t.used np = true
  rest_free : ∀ j ∈ l, t.ofile np j = none
  nodup : l.Nodup

/-- One round of the loop of `kfork`: the child's descriptor `i` becomes
    a `filedup` of the parent's. -/
theorem kforkRound_spec {i : Fin NOFILE} {l : List (Fin NOFILE)} (ht : ForkLoop p np (i :: l) t) :
    ∃ t', (do
      match (← get).ofile p i with
      | some f =>
          filedup f
          setOfile np i (some f)
      | none => pure () : FileM Unit).run t = .ok (⟨⟩, t') ∧ ForkLoop p np l t' := by
  have hfree : t.ofile np i = none := ht.rest_free i (List.mem_cons_self ..)
  have hi : i ∉ l := (List.nodup_cons.mp ht.nodup).1
  rcases hpi : t.ofile p i with _ | f
  · refine ⟨t, ?_, ⟨ht.inv, ht.used, fun j hj => ht.rest_free j (List.mem_cons_of_mem _ hj),
      (List.nodup_cons.mp ht.nodup).2⟩⟩
    simp only [StateT.run_bind, StateT.run_get, pure_bind, hpi]
    rfl
  · -- the dup counts the child's new descriptor
    obtain ⟨hdup, hgood, hheld⟩ :=
      filedup_spec ht.inv.good (ref_pos_of_slot (by rw [ht.inv.exact]) hpi)
    refine ⟨_, ?_, ⟨⟨hgood.withOfile (d := i) ht.used (some f), fun g => ?_⟩, ht.used, fun j hj => ?_,
      (List.nodup_cons.mp ht.nodup).2⟩⟩
    · simp only [StateT.run_bind, StateT.run_get, pure_bind, hpi, hdup, ok_bind, setOfile_run]
    · rw [held_install (by simpa using hfree), hheld, ht.inv.exact]
      split_ifs <;> simp
    · have hji : ¬ (np = np ∧ j = i) := fun h => hi (h.2 ▸ hj)
      rw [FileSys.withOfile_ofile, if_neg hji]
      exact ht.rest_free j (List.mem_cons_of_mem _ hj)

theorem kfork_spec (hs : s.Inv) (allocOk : Bool) :
    ∃ r s', (kfork p allocOk).run s = .ok (r, s') ∧ s'.Inv := by
  rcases hfind : (List.finRange NPROC).find? (fun q => !s.used q) with _ | np
  · refine ⟨none, s, ?_, hs⟩
    simp only [kfork, StateT.run_bind, StateT.run_get, pure_bind, hfind]
    rfl
  cases allocOk
  · refine ⟨none, s, ?_, hs⟩
    simp only [kfork, StateT.run_bind, StateT.run_get, pure_bind, hfind]
    rfl
  -- the child's slot was unused, so it has no descriptors yet
  have hnp : s.used np = false := by simpa using List.find?_some hfind
  have hinv₁ : FileSys.Inv { s with used := Function.update s.used np true } :=
    ⟨good_withUsed hs.good np true (by simp), hs.exact⟩
  obtain ⟨s', hloop, hI⟩ := forM_run_ok_rest (I := ForkLoop p np)
    (fun i l t ht => kforkRound_spec ht) (List.finRange NOFILE)
    ⟨hinv₁, by simp, fun j _ => hs.good.unused_closed np j hnp, List.nodup_finRange NOFILE⟩
  refine ⟨some np, s', ?_, hI.inv⟩
  simp only [kfork, StateT.run_bind, StateT.run_get, pure_bind, hfind, Bool.not_true,
    Bool.false_eq_true, if_false, StateT.run_modify, ok_bind, hloop]
  rfl

/-- What the loop of `kexit` keeps: the descriptors already passed are
    closed. -/
structure ExitLoop (p : Fin NPROC) (l : List (Fin NOFILE)) (t : FileSys) : Prop where
  inv : t.Inv
  used : t.used p = true
  done_free : ∀ j, j ∉ l → t.ofile p j = none

/-- One round of the loop of `kexit`: descriptor `fd` is closed. -/
theorem kexitRound_spec {fd : Fin NOFILE} {l : List (Fin NOFILE)} (ht : ExitLoop p (fd :: l) t) :
    ∃ t', (do
      match (← get).ofile p fd with
      | some f =>
          fileclose f
          setOfile p fd none
      | none => pure () : FileM Unit).run t = .ok (⟨⟩, t') ∧ ExitLoop p l t' := by
  rcases hpf : t.ofile p fd with _ | f
  · refine ⟨t, ?_, ⟨ht.inv, ht.used, fun j hj => ?_⟩⟩
    · simp only [StateT.run_bind, StateT.run_get, pure_bind, hpf]
      rfl
    · by_cases hjf : j = fd
      · rw [hjf, hpf]
      · exact ht.done_free j (by simp [hjf, hj])
  · obtain ⟨t₁, hclose, hgood₁, hofile₁, hused₁, hheld₁⟩ :=
      fileclose_spec ht.inv.good (ref_pos_of_slot (by rw [ht.inv.exact]) hpf)
    have hslot : t₁.ofile p fd = some f := by rw [hofile₁, hpf]
    refine ⟨_, ?_, ⟨⟨hgood₁.withOfile (d := fd) (hused₁ ▸ ht.used) none, fun g => ?_⟩, hused₁ ▸ ht.used,
      fun j hj => ?_⟩⟩
    · simp only [StateT.run_bind, StateT.run_get, pure_bind, hpf, hclose, ok_bind, setOfile_run]
    · rw [held_clear hslot, hheld₁, ht.inv.exact]
      split_ifs <;> simp
    · rw [FileSys.withOfile_ofile]
      by_cases hjf : j = fd
      · simp [hjf]
      · rw [if_neg (fun h => hjf h.2), hofile₁]
        exact ht.done_free j (by simp [hjf, hj])

/-- `initproc` exiting panics. -/
theorem kexit_initproc (s : FileSys) : (kexit initproc).run s = .error "init exiting" := by
  simp only [kexit]
  rfl

theorem kexit_spec (hs : s.Inv) (hp : s.used p = true) (hinit : p ≠ initproc) :
    ∃ s', (kexit p).run s = .ok ((), s') ∧ s'.Inv ∧ s'.used p = false := by
  obtain ⟨s₁, hloop, hI⟩ := forM_run_ok_rest (I := ExitLoop p)
    (fun fd l t ht => kexitRound_spec ht) (List.finRange NOFILE)
    ⟨hs, hp, fun j hj => absurd (List.mem_finRange j) hj⟩
  have hclosed : ∀ d, s₁.ofile p d = none := fun d => hI.done_free d List.not_mem_nil
  refine ⟨_, ?_, ⟨good_withUsed hI.inv.good p false fun _ => hclosed, hI.inv.exact⟩, by simp⟩
  simp only [kexit, if_neg hinit, run_bind_of_eq_ok hloop, StateT.run_modify]
  rfl

end Proc

end Calls

/-! ## The calls as a machine -/

/-- The calls that make, share and drop file references, each by the
    process in a slot. -/
inductive FileAct where
  | sys_open (p : Fin NPROC) (target : Option (Fin NINODE × Option Int16)) (omode : Int32)
  | sys_dup (p : Fin NPROC) (fd : Int)
  | sys_close (p : Fin NPROC) (fd : Int)
  | sys_pipe (p : Fin NPROC) (pa : Option Nat) (copyOk : Bool)
  | fork (p : Fin NPROC) (allocOk : Bool)
  | exit (p : Fin NPROC)

/-- A call's outcome: the state it returns in, or its `panic`. -/
def callStep {α : Type} (m : FileM α) (s : FileSys) : Outcome FileSys :=
  match m.run s with
  | .ok (_, s') => .next s'
  | .error msg => .panic msg

/-- One call, by a process that exists; the page `kalloc` gives a pipe is
    not one in use. -/
def fileStep (s : FileSys) : FileAct → Outcome FileSys
  | .sys_open p target omode =>
      if s.used p then callStep (sys_open p target omode) s else .blocked
  | .sys_dup p fd => if s.used p then callStep (sys_dup p fd) s else .blocked
  | .sys_close p fd => if s.used p then callStep (sys_close p fd) s else .blocked
  | .sys_pipe p pa copyOk =>
      if s.used p ∧ ∀ q ∈ pa, q ∉ s.live then callStep (sys_pipe p pa copyOk) s else .blocked
  | .fork p allocOk => if s.used p then callStep (kfork p allocOk) s else .blocked
  | .exit p => if s.used p then callStep (kexit p) s else .blocked

/-- No file is open and only `initproc`, in slot 0, exists. -/
def fileInit : FileSys :=
  ⟨fun _ => File.zero, fun _ => Xv6.File.pipealloc fun _ => 0, fun _ _ => none, fun p => p == 0,
    [], [], []⟩

theorem callStep_of_run {α : Type} {m : FileM α} {s t : FileSys} {r : α}
    (h : m.run s = .ok (r, t)) : callStep m s = .next t := by
  simp only [callStep, h]

theorem fileInit_inv : fileInit.Inv := by
  refine ⟨⟨fun _ _ => rfl, fun _ _ _ => rfl, fun _ h => (Nat.lt_irrefl 0 h).elim,
    fun _ h => (Nat.lt_irrefl 0 h).elim, fun _ _ _ _ h => (Nat.lt_irrefl 0 h.1).elim,
    fun _ h => absurd h List.not_mem_nil, fun _ h => absurd h List.not_mem_nil, List.nodup_nil,
    fun _ => rfl⟩, fun f => ?_⟩
  simp [FileSys.held, refs, fileInit, File.zero]

/-- **STEP**: a call by a process that exists returns and keeps the
    invariant, except `exit` by `initproc`, which panics. -/
theorem fileStep_next {s : FileSys} (hs : s.Inv) (a : FileAct) :
    fileStep s a = .blocked ∨ (∃ s', fileStep s a = .next s' ∧ s'.Inv) ∨
      (a = .exit initproc ∧ fileStep s a = .panic "init exiting") := by
  -- each call's spec gives the state it returns in
  have lift : ∀ {α : Type} {m : FileM α}, (∃ r t, m.run s = .ok (r, t) ∧ t.Inv) →
      ∃ s', callStep m s = .next s' ∧ s'.Inv := fun ⟨_, t, hrun, ht⟩ =>
    ⟨t, callStep_of_run hrun, ht⟩
  cases a with
  | sys_open p target omode =>
      by_cases hp : s.used p = true
      · obtain ⟨r, t, hrun, ht, -⟩ := sys_open_spec hs hp target omode
        exact Or.inr (Or.inl (by simpa [fileStep, hp] using lift ⟨r, t, hrun, ht⟩))
      · exact Or.inl (by simp [fileStep, hp])
  | sys_dup p fd =>
      by_cases hp : s.used p = true
      · obtain ⟨r, t, hrun, ht, -⟩ := sys_dup_spec hs hp fd
        exact Or.inr (Or.inl (by simpa [fileStep, hp] using lift ⟨r, t, hrun, ht⟩))
      · exact Or.inl (by simp [fileStep, hp])
  | sys_close p fd =>
      by_cases hp : s.used p = true
      · obtain ⟨r, t, hrun, ht, -⟩ := sys_close_spec hs hp fd
        exact Or.inr (Or.inl (by simpa [fileStep, hp] using lift ⟨r, t, hrun, ht⟩))
      · exact Or.inl (by simp [fileStep, hp])
  | sys_pipe p pa copyOk =>
      by_cases hg : s.used p = true ∧ ∀ q ∈ pa, q ∉ s.live
      · obtain ⟨r, t, hrun, ht, -⟩ := sys_pipe_spec hs hg.1 pa hg.2 copyOk
        refine Or.inr (Or.inl ?_)
        simp only [fileStep]
        rw [if_pos hg]
        exact lift ⟨r, t, hrun, ht⟩
      · refine Or.inl ?_
        simp only [fileStep]
        rw [if_neg hg]
  | fork p allocOk =>
      by_cases hp : s.used p = true
      · obtain ⟨r, t, hrun, ht⟩ := kfork_spec (p := p) hs allocOk
        exact Or.inr (Or.inl (by simpa [fileStep, hp] using lift ⟨r, t, hrun, ht⟩))
      · exact Or.inl (by simp [fileStep, hp])
  | exit p =>
      by_cases hp : s.used p = true
      · by_cases hinit : p = initproc
        · -- `kexit` refuses `initproc` before it closes anything
          subst hinit
          refine Or.inr (Or.inr ⟨rfl, ?_⟩)
          simp only [fileStep, hp, if_true, callStep, kexit_initproc]
        · obtain ⟨t, hrun, ht, -⟩ := kexit_spec hs hp hinit
          exact Or.inr (Or.inl (by simpa [fileStep, hp] using lift ⟨(), t, hrun, ht⟩))
      · exact Or.inl (by simp [fileStep, hp])

theorem reachable_inv {s : FileSys} (h : Reachable fileInit fileStep s) : s.Inv :=
  h.inv fileInit_inv fun s a s' hs hstep => by
    rcases fileStep_next hs a with hb | ⟨t, ht, hinv⟩ | ⟨-, hpanic⟩
    · rw [hb] at hstep
      cases hstep
    · rw [ht] at hstep
      cases hstep
      exact hinv
    · rw [hpanic] at hstep
      cases hstep

namespace FileSys.Good

variable {s : FileSys}

/-- A pipe's read end is open exactly while an open readable file is on it. -/
theorem readopen_iff (hs : s.Good) {pa : Nat} (hpa : pa ∈ s.live) :
    (s.pipes pa).readopen = true ↔ ∃ f, 0 < (s.ftable f).ref ∧ (s.ftable f).type = .FD_PIPE ∧
      (s.ftable f).pipe = pa ∧ (s.ftable f).readable = true := by
  have h := hs.ends pa hpa false
  simp only [endOpen, Bool.false_eq_true, if_false] at h
  rw [h]
  -- a pipe file is readable exactly when it is not writable
  refine exists_congr fun f => ⟨fun ⟨hr, ht, hp, hw⟩ => ⟨hr, ht, hp, ?_⟩,
    fun ⟨hr, ht, hp, hrd⟩ => ⟨hr, ht, hp, ?_⟩⟩
  · rw [hs.pipe_mode f hr ht, hw]
    rfl
  · have hmode := hs.pipe_mode f hr ht
    rw [hrd] at hmode
    cases hw : (s.ftable f).writable
    · rfl
    · rw [hw] at hmode
      cases hmode

/-- A pipe's write end is open exactly while an open writable file is on it. -/
theorem writeopen_iff (hs : s.Good) {pa : Nat} (hpa : pa ∈ s.live) :
    (s.pipes pa).writeopen = true ↔ ∃ f, 0 < (s.ftable f).ref ∧ (s.ftable f).type = .FD_PIPE ∧
      (s.ftable f).pipe = pa ∧ (s.ftable f).writable = true :=
  hs.ends pa hpa true

/-- A page is a live pipe exactly while an open file is on it. -/
theorem live_iff (hs : s.Good) (pa : Nat) :
    pa ∈ s.live ↔ ∃ f, 0 < (s.ftable f).ref ∧ (s.ftable f).type = .FD_PIPE ∧ (s.ftable f).pipe = pa := by
  constructor
  · intro hpa
    obtain ⟨w, hw⟩ := hs.live_open pa hpa
    obtain ⟨f, hr, ht, hp, -⟩ := (hs.ends pa hpa w).mp hw
    exact ⟨f, hr, ht, hp⟩
  · rintro ⟨f, hr, ht, rfl⟩
    exact hs.pipe_live f hr ht

end FileSys.Good

/-- **FILE REFERENCES**: in every reachable state, each file's `ref` is the
    number of descriptors over all processes that refer to it, a file with
    `ref` 0 is `FD_NONE`, a live pipe's `readopen` (`writeopen`) is set
    exactly while an open readable (writable) file is on it, a page is a
    live pipe exactly while an open file is on it, each page from `kalloc`
    went back to `kfree` once unless it is still live, and the one call
    that panics is `exit` by `initproc`, with `init exiting`. -/
theorem file_refs_exact {s : FileSys} (h : Reachable fileInit fileStep s) :
    (∀ f, (s.ftable f).ref = refs s.ofile f) ∧
    (∀ f, (s.ftable f).ref = 0 → (s.ftable f).type = .FD_NONE) ∧
    (∀ pa ∈ s.live,
      ((s.pipes pa).readopen = true ↔ ∃ f, 0 < (s.ftable f).ref ∧
        (s.ftable f).type = .FD_PIPE ∧ (s.ftable f).pipe = pa ∧ (s.ftable f).readable = true) ∧
      ((s.pipes pa).writeopen = true ↔ ∃ f, 0 < (s.ftable f).ref ∧
        (s.ftable f).type = .FD_PIPE ∧ (s.ftable f).pipe = pa ∧ (s.ftable f).writable = true)) ∧
    (∀ pa, pa ∈ s.live ↔
      ∃ f, 0 < (s.ftable f).ref ∧ (s.ftable f).type = .FD_PIPE ∧ (s.ftable f).pipe = pa) ∧
    (∀ pa, s.allocs.count pa = s.freed.count pa + s.live.count pa) ∧ s.live.Nodup ∧
    ∀ a msg, fileStep s a = .panic msg → a = .exit initproc ∧ msg = "init exiting" := by
  have hs := reachable_inv h
  refine ⟨fun f => ?_, hs.good.none_of_free,
    fun pa hpa => ⟨hs.good.readopen_iff hpa, hs.good.writeopen_iff hpa⟩, hs.good.live_iff,
    hs.good.allocs_count, hs.good.live_nodup, fun a msg hpanic => ?_⟩
  · have := hs.exact f
    unfold FileSys.held at this
    omega
  · rcases fileStep_next hs a with hb | ⟨t, ht, -⟩ | ⟨ha, hinit⟩
    · rw [hb] at hpanic
      cases hpanic
    · rw [ht] at hpanic
      cases hpanic
    · rw [hinit] at hpanic
      cases hpanic
      exact ⟨ha, rfl⟩

/-- `initproc` makes a pipe and forks; the parent closes its read end,
    the child exits, and the parent closes the write end: the page goes
    back to `kfree`, once. -/
theorem file_refs_exact_after_pipe :
    ∃ s, Reachable fileInit fileStep s ∧ s.freed = [7] ∧ s.live = [] ∧
      ∀ f, (s.ftable f).ref = refs s.ofile f := by
  have hrun : (replay fileStep fileInit [.sys_pipe 0 (some 7) true, .fork 0 true, .sys_close 0 0,
      .exit 1, .sys_close 0 1]).map (fun s => (s.freed, s.live)) = some ([7], []) := by
    decide +kernel
  obtain ⟨s, hs, he⟩ := Option.map_eq_some_iff.mp hrun
  simp only [Prod.mk.injEq] at he
  have hreach := replay_reachable .init hs
  exact ⟨s, hreach, he.1, he.2, (file_refs_exact hreach).1⟩

end Xv6.File.Table
