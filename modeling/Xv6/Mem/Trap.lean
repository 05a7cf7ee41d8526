import Xv6.Mem.ProcInv

/-! # User page faults (`usertrap`)

    A trap from user mode with `scause` other than 8 (a system call) and
    not a device interrupt reaches the fault branch of `usertrap`: for a
    load or store page fault (`scause` 13 or 15) it calls `vmfault`, and
    every other trap, and every fault the test sends on, is "unexpected"
    and `setkilled`.

    The test reads `vmfault(...) == 0` as "the lazy page was allocated",
    while `vmfault` returns `0` when it did nothing and the new page when
    it mapped one.  So:

    * `usertrapFault_of_vmfault`: the process is killed exactly when
      `vmfault` mapped a page, and returns to user space exactly when it
      did not;
    * `usertrapFault_of_le_sz`: a fault at or beyond `p->sz` (and so one
      at or beyond `MAXVA`) changes nothing and kills nothing, so the
      faulting instruction runs again and faults the same way;
      `vmfault_of_mapped`: so does a fault on a page the table maps. -/

namespace Xv6.Mem

section Code

variable (kend : Nat)

/-- The fault branch of `usertrap()` for process `p`, with `r_scause()`
    and `r_stval()`: `true` when it calls `setkilled(p)`, after which the
    `killed(p)` test calls `kexit(-1)`; `false` when the trap counts as
    handled. -/
def usertrapFault (p : Fin NPROC) (scause stval : Nat) : SysM Bool := do
  if scause = 15 ∨ scause = 13 then
    if (← vmfault kend p ((← get).procs p).pagetable stval) = 0 then
      -- "Lazy page allocation"
      return false
  return true

end Code

variable {kend : Nat} {s s' : MemSys} {p : Fin NPROC} {scause stval mem : Nat}

/-- `vmfault` does nothing for an address at or beyond `p->sz`. -/
theorem vmfault_of_le_sz {pagetable : Nat} (hsz : (s.procs p).sz ≤ stval) :
    (vmfault kend p pagetable stval).run s = .ok (0, s) := by
  simp [vmfault, hsz]
  rfl

/-- `ismapped` reads whether the table maps the page of `va`. -/
theorem ismapped_run {va : Nat} (ha : va < MAXVA) (v : Vm) :
    (ismapped va).run v = .ok ((v.pt.lookup va).isSome, v) := by
  simp only [ismapped, StateT.run_bind, walk_false_run ha, StateExcept.ok_bind]
  simp only [PageTable.lookup]
  by_cases h : v.pt.l1 (key1 va) ≠ 0 ∧ v.pt.l0 (key0 va) ≠ 0
  · rw [if_pos h, if_pos h]
    rfl
  · rw [if_neg h, if_neg h]
    rfl

/-- `vmfault` does nothing for an address whose page the table already
    maps: a store to a read-only page, or a fault on the stack guard. -/
theorem vmfault_of_mapped {pagetable : Nat} (hsz : stval < (s.procs p).sz)
    (hmax : PGROUNDDOWN stval < MAXVA) (hmap : ((s.tables pagetable).lookup (PGROUNDDOWN stval)).isSome) :
    (vmfault kend p pagetable stval).run s = .ok (0, s) := by
  have hrun := onTable_run (r := pagetable) (s := s) (ismapped_run hmax ⟨s.tables pagetable, s.pm⟩)
  -- `ismapped` writes back the table it read
  have hsame : { s with tables := Function.update s.tables pagetable (s.tables pagetable) } = s := by
    rw [Function.update_eq_self]
  rw [hsame] at hrun
  simp only [vmfault, StateT.run_bind, StateT.run_get, pure_bind, if_neg (Nat.not_le.mpr hsz), hrun,
    StateExcept.ok_bind, hmap, if_true]
  rfl

/-- A trap that is not a page fault is unexpected. -/
theorem usertrapFault_of_not_fault (hc : ¬ (scause = 15 ∨ scause = 13)) :
    (usertrapFault kend p scause stval).run s = .ok (true, s) := by
  simp only [usertrapFault, if_neg hc]
  rfl

/-- **INVERTED TEST**: on a page fault `usertrap` kills the process
    exactly when `vmfault` mapped a page for it. -/
theorem usertrapFault_of_vmfault (hc : scause = 15 ∨ scause = 13)
    (h : (vmfault kend p (s.procs p).pagetable stval).run s = .ok (mem, s')) :
    (usertrapFault kend p scause stval).run s = .ok (mem != 0, s') := by
  simp only [usertrapFault, if_pos hc, StateT.run_bind, StateT.run_get, pure_bind, h,
    StateExcept.ok_bind]
  by_cases hm : mem = 0
  · subst hm
    rfl
  · have hne : (mem != 0) = true := bne_iff_ne.mpr hm
    simp only [hm, if_false, hne]
    rfl

/-- A fault at or beyond `p->sz` leaves the system as it was and the
    process alive: it returns to the same instruction, which faults
    again. -/
theorem usertrapFault_of_le_sz (hc : scause = 15 ∨ scause = 13) (hsz : (s.procs p).sz ≤ stval) :
    (usertrapFault kend p scause stval).run s = .ok (false, s) :=
  usertrapFault_of_vmfault hc (vmfault_of_le_sz hsz)

/-- **USER FAULTS**: for every system, process and load or store page
    fault, a fault at or beyond `p->sz`, and a fault on a page the
    process's table maps (a store to read-only text, the stack guard),
    change nothing and do not kill the process, which faults again at the
    same instruction; a fault that `vmfault` resolves with a page kills
    it. -/
theorem usertrap_fault_outcome (s : MemSys) (p : Fin NPROC) (stval : Nat)
    (hc : scause = 15 ∨ scause = 13) :
    ((s.procs p).sz ≤ stval → (usertrapFault kend p scause stval).run s = .ok (false, s)) ∧
    (stval < (s.procs p).sz → PGROUNDDOWN stval < MAXVA →
      ((s.tables (s.procs p).pagetable).lookup (PGROUNDDOWN stval)).isSome →
      (usertrapFault kend p scause stval).run s = .ok (false, s)) ∧
    ∀ mem s', (vmfault kend p (s.procs p).pagetable stval).run s = .ok (mem, s') →
      (usertrapFault kend p scause stval).run s = .ok (mem != 0, s') :=
  ⟨usertrapFault_of_le_sz hc,
    fun hsz hmax hmap => usertrapFault_of_vmfault hc (vmfault_of_mapped hsz hmax hmap),
    fun _ _ h => usertrapFault_of_vmfault hc h⟩

/-- A store fault at address `0` by a process of size `0` on the booted
    system: `usertrap` returns to user space with nothing changed. -/
theorem usertrap_fault_outcome_at_zero :
    (usertrapFault 0 0 15 0).run (MemSys.boot ⟨[]⟩) = .ok (false, MemSys.boot ⟨[]⟩) :=
  (usertrap_fault_outcome (MemSys.boot ⟨[]⟩) 0 0 (.inl rfl)).1 (Nat.zero_le _)

end Xv6.Mem
