import Xv6.Fs.View
import Xv6.Mkfs

/-! # The name space across failures and orphans

    What the directory tree holds after calls that fail or that act on a
    directory still in use.

    * `sys_open_create_no_fd`: `open` with `O_CREATE` links the new name in
      `create` before it takes a file and a descriptor, and its failure exit
      releases the inode without unlinking it, so a call that returns `-1`
      leaves the name in place; `failed_create_open_links_name` runs it;
    * `orphan_dir_keeps_link`: `unlink` removes the entry of an empty
      directory that is still the caller's current directory, and `mkdir`
      of a subdirectory there raises the orphan's link count for `..`; the
      orphan then has a link but no entry in any reachable directory, and
      `iput` (`iput_run_linked`) and `ireclaim` never free it
      (`orphan_dir_survives_recovery`);
    * `mkfs_duplicate_names`: `mkfs` strips `user/` and a leading `_` from
      its arguments and never compares the names it writes, so an image can
      hold two live root entries with one name. -/

namespace Xv6.Fs

open StateExcept (checkOk exists_of_checkOk panicMsg eq_error_of_panicMsg)

open Mkfs

section Failure

variable {s : FsState}

/-- **NO ROLLBACK**: when `create` succeeds but no descriptor is free,
    `open(path, O_CREATE)` returns `-1` and leaves the disk exactly as
    `create` left it, with the new entry in place. -/
theorem sys_open_create_no_fd {s₁ : FsState} {path : List UInt8} {omode : Int32}
    {ip : Fin NINODE} {f : Fin NFILE} (hpath : argstrOk path = true)
    (hcreate : omode &&& O_CREATE ≠ 0)
    (hrun : (create path T_FILE 0 0).run
      { s with log := { s.log with outstanding := s.log.outstanding + 1 } } = .ok (some ip, s₁))
    (hnotdev : (s₁.itable ip).type ≠ T_DEVICE) (href : 1 ≤ (s₁.itable ip).ref)
    (hlink : (s₁.itable ip).nlink ≠ 0) (hc : s₁.log.committing = false)
    (hfile : (List.finRange NFILE).find? (fun f => (s₁.ftable f).ref == 0) = some f)
    (hnone : (s₁.ftable f).type = .none) (hfull : ∀ d, s₁.ofile d ≠ none) :
    ∃ s', (sys_open path omode).run s = .ok (-1, s') ∧ s'.disk = s₁.disk := by
  obtain ⟨s', hfail, hdisk⟩ := sysOpenFile_no_fd omode hnotdev href hlink hc hfile hnone hfull
  refine ⟨s', ?_, hdisk⟩
  simp only [sys_open, hpath, Bool.not_true, Bool.false_eq_true, if_false, StateT.run_bind,
    beginOp_run, pure_bind, if_pos hcreate, hrun]
  exact hfail

end Failure

/-! ## Runs -/

/-- The calls that orphan a directory: make `/d`, enter it, unlink it,
    and make `e` inside it. -/
def orphanCalls : List Syscall :=
  [.mkdir (cstr "/d"), .chdir (cstr "/d"), .unlink (cstr "/d"), .mkdir (cstr "e")]

/-- What the orphaned directory, i-number 2, looks like on a disk: a
    directory with one link, and a root whose child entries name no
    directory and none of them inode 2. -/
def OrphanOnDisk (d : Disk) : Prop :=
  (d.dinode 2).type = T_DIR ∧ (d.dinode 2).nlink = 1 ∧
    (∀ e ∈ entries d ROOTINO, IsChild e → (d.dinode e.1).type ≠ T_DIR) ∧
    ∀ e ∈ entries d ROOTINO, e.1 ≠ 2

instance (d : Disk) : Decidable (OrphanOnDisk d) := by
  unfold OrphanOnDisk
  infer_instance

/-- On such a disk no reachable directory names inode 2, though its link
    count is one. -/
theorem unreachable_of_orphanOnDisk {d : Disk} (h : OrphanOnDisk d) :
    ∀ p, DirReachable d p → ∀ e ∈ entries d p, e.1 ≠ 2 := by
  intro p hp
  rw [dirReachable_eq_root h.2.2.1 hp]
  exact h.2.2.2

/-- The four runs of this section, on the empty image and on the image of
    `cat` and `_cat`, checked in one evaluation. -/
theorem namespace_runs :
    checkOk (fun d =>
      checkOk (fun r : List Int × FsState => r.1 = (List.range 16).map Int.ofNat ∧
          ¬ HasEntry r.2.disk ROOTINO (cstr "a") ∧
          checkOk (fun r' : Int × FsState => r'.1 = -1 ∧ HasEntry r'.2.disk ROOTINO (cstr "a"))
            ((sys_open (cstr "/a") (O_CREATE ||| O_RDWR)).run r.2) = some true)
        (bootRun noDevices d (List.replicate 16 (.open (cstr "/") O_RDONLY))) = some true ∧
      checkOk (fun r : List Int × FsState => r.1 = [0, 0, 0, 0] ∧ OrphanOnDisk r.2.disk ∧
          checkOk OrphanOnDisk ((boot r.2.disk).map FsState.disk) = some true)
        (bootRun noDevices d orphanCalls) = some true)
      (mkfs []) = some true ∧
    checkOk (fun d => ¬ DistinctNames d ROOTINO ∧
      checkOk (fun r : List Int × FsState => r.1 = [0, 0])
        (bootRun noDevices d [.unlink (cstr "/cat"), .open (cstr "/cat") O_RDONLY]) = some true)
      (mkfs [⟨cstr "cat", []⟩, ⟨cstr "_cat", []⟩]) = some true := by
  decide +kernel

/-- **NAME LEFT BEHIND**: with all sixteen descriptors of the process in
    use, `open("/a", O_CREATE|O_RDWR)` returns `-1`, and the root, which
    had no entry `a`, now has one. -/
theorem failed_create_open_links_name :
    ∃ d s s', mkfs [] = .ok d ∧
      bootRun noDevices d (List.replicate 16 (.open (cstr "/") O_RDONLY)) =
        .ok ((List.range 16).map Int.ofNat, s) ∧
      ¬ HasEntry s.disk ROOTINO (cstr "a") ∧
      (sys_open (cstr "/a") (O_CREATE ||| O_RDWR)).run s = .ok (-1, s') ∧
      HasEntry s'.disk ROOTINO (cstr "a") := by
  obtain ⟨d, hd, hrun, -⟩ := exists_of_checkOk namespace_runs.1
  obtain ⟨⟨rs, s⟩, hs, hrs, hbefore, hopen⟩ := exists_of_checkOk hrun
  obtain ⟨⟨r, s'⟩, hs', hr, hafter⟩ := exists_of_checkOk hopen
  subst hrs hr
  exact ⟨d, s, s', hd, hs, hbefore, hs', hafter⟩

/-- **ORPHAN**: after `orphanCalls` every call has returned `0`, and
    directory 2 (`/d`) has link count one while no directory reachable
    from the root has an entry for it. -/
theorem orphan_dir_keeps_link :
    ∃ d s, mkfs [] = .ok d ∧ bootRun noDevices d orphanCalls = .ok ([0, 0, 0, 0], s) ∧
      (s.disk.dinode 2).type = T_DIR ∧ (s.disk.dinode 2).nlink = 1 ∧
      ∀ p, DirReachable s.disk p → ∀ e ∈ entries s.disk p, e.1 ≠ 2 := by
  obtain ⟨d, hd, -, hrun⟩ := exists_of_checkOk namespace_runs.1
  obtain ⟨⟨rs, s⟩, hs, hrs, horphan, -⟩ := exists_of_checkOk hrun
  subst hrs
  exact ⟨d, s, hd, hs, horphan.1, horphan.2.1, unreachable_of_orphanOnDisk horphan⟩

/-- **NOT RECLAIMED**: a crash after `orphanCalls` and the next boot's
    `fsinit` leave directory 2 allocated with one link and unreachable. -/
theorem orphan_dir_survives_recovery :
    ∃ d s s', mkfs [] = .ok d ∧ bootRun noDevices d orphanCalls = .ok ([0, 0, 0, 0], s) ∧
      boot s.disk = .ok s' ∧
      (s'.disk.dinode 2).type = T_DIR ∧ (s'.disk.dinode 2).nlink = 1 ∧
      ∀ p, DirReachable s'.disk p → ∀ e ∈ entries s'.disk p, e.1 ≠ 2 := by
  obtain ⟨d, hd, -, hrun⟩ := exists_of_checkOk namespace_runs.1
  obtain ⟨⟨rs, s⟩, hs, hrs, -, hboot⟩ := exists_of_checkOk hrun
  obtain ⟨dk, hdk, horphan⟩ := exists_of_checkOk hboot
  subst hrs
  cases hb : boot s.disk with
  | error msg => rw [hb] at hdk; cases hdk
  | ok s' =>
      rw [hb] at hdk
      cases hdk
      exact ⟨d, s, s', hd, hs, hb, horphan.1, horphan.2.1, unreachable_of_orphanOnDisk horphan⟩

/-- **DUPLICATE NAMES**: `mkfs` given `cat` and `_cat` writes two root
    entries named `cat`; after `unlink("/cat")` succeeds, `open("/cat")`
    still finds one. -/
theorem mkfs_duplicate_names :
    ∃ d s, mkfs [⟨cstr "cat", []⟩, ⟨cstr "_cat", []⟩] = .ok d ∧ ¬ DistinctNames d ROOTINO ∧
      bootRun noDevices d [.unlink (cstr "/cat"), .open (cstr "/cat") O_RDONLY] = .ok ([0, 0], s) := by
  obtain ⟨d, hd, hdup, hrun⟩ := exists_of_checkOk namespace_runs.2
  obtain ⟨⟨rs, s⟩, hs, hrs⟩ := exists_of_checkOk hrun
  subst hrs
  exact ⟨d, s, hd, hdup, hs⟩

end Xv6.Fs
