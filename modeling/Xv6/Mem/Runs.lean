import Xv6.Lib.Machine
import Xv6.Mem.ExecRun
import Xv6.Mem.Sbrk
import Xv6.Mem.Trap

/-! # Every run of the memory calls

    The calls that change a process's memory are the steps of one machine,
    from the state `kinit` leaves: `userinit`, and by a live process
    `kfork`, `growproc(n)` for every `int n`, `kexec` of any file with the
    argument strings `sys_exec` fetched, and `freeproc` when `wait` reaps
    it.  A call that returns moves; one that panics fails.

    * `memInit_inv`, `memStep_inv`: the boot state has `SysInv`, and every
      call that returns keeps it;
    * `copyout_above`, `copyin_above`: past `PGROUNDUP(p->sz)` the copies
      on behalf of `p` find nothing and fault nothing in;
    * `address_space_shape`: in every reachable state each live process has
      an `AddressSpace`: its leaves below its size, user-accessible but for
      one guard page, its user pages its own, the two top pages without
      `PTE_U`, nothing reachable past its size, and a `freeproc` that
      returns. -/

namespace Xv6.Mem

open Machine StateExcept

/-- The memory calls; `exec` carries what `namei` found and the lengths of
    the argument strings. -/
inductive MemCall where
  | userinit
  | fork (p : Fin NPROC)
  | grow (p : Fin NPROC) (n : Int)
  | exec (p : Fin NPROC) (ip : Option ExecFile) (argv : List Nat)
  | free (p : Fin NPROC)

/-- A call's outcome: the state it returns in, or its `panic`. -/
def sysStep {α : Type} (m : SysM α) (s : MemSys) : Outcome MemSys :=
  match m.run s with
  | .ok (_, s') => .next s'
  | .error msg => .panic msg

/-- One call.  All but `userinit` are made by a live process, and `exec`
    gets what `sys_exec` fetched: fewer than `MAXARG` strings, each with its
    `0` inside one page. -/
def memStep (kend trampoline : Nat) (s : MemSys) : MemCall → Outcome MemSys
  | .userinit => sysStep (userinit kend trampoline) s
  | .fork p => if (s.procs p).used then sysStep (kfork kend trampoline p) s else .blocked
  | .grow p n => if (s.procs p).used then sysStep (growproc kend p n) s else .blocked
  | .exec p ip argv =>
      if (s.procs p).used ∧ argv.length < MAXARG ∧ ∀ l ∈ argv, l < PGSIZE then
        sysStep (kexec kend trampoline p ip argv) s
      else .blocked
  | .free p => if (s.procs p).used then sysStep (freeproc kend p) s else .blocked

/-- The system once `kinit` freed the pages past the kernel. -/
def memInit (kend : Nat) : MemSys := MemSys.boot ⟨bootFree kend⟩

theorem sysStep_next {α : Type} {m : SysM α} {s s' : MemSys} (h : sysStep m s = .next s') :
    ∃ a, m.run s = .ok (a, s') := by
  unfold sysStep at h
  split at h
  · next a s₁ hrun =>
      cases h
      exact ⟨a, hrun⟩
  · cases h

section Steps

variable {kend trampoline : Nat}

theorem memInit_inv : SysInv kend trampoline (memInit kend) where
  pageInv := kinit_pageInv
  unused _ _ := rfl
  proc _ h := nomatch h
  roots _ _ h := nomatch h

/-- **STEP**: every memory call that returns keeps the invariant. -/
theorem memStep_inv (hend : 0 < kend) {s s' : MemSys} (hs : SysInv kend trampoline s) (c : MemCall)
    (h : memStep kend trampoline s c = .next s') : SysInv kend trampoline s' := by
  cases c with
  | userinit =>
      obtain ⟨_, hrun⟩ := sysStep_next h
      obtain ⟨r, s₁, hrun₁, hs₁, -⟩ := allocproc_spec hend hs
      rw [userinit, StateT.run_bind, hrun₁] at hrun
      cases hrun
      exact hs₁
  | fork p =>
      simp only [memStep] at h
      split at h
      · next hp =>
          obtain ⟨_, hrun⟩ := sysStep_next h
          exact kfork_spec hend hs hp hrun
      · cases h
  | grow p n =>
      simp only [memStep] at h
      split at h
      · next hp =>
          obtain ⟨_, hrun⟩ := sysStep_next h
          exact growproc_spec hend hs hp n hrun
      · cases h
  | exec p ip argv =>
      simp only [memStep] at h
      split at h
      · next hg =>
          obtain ⟨_, hrun⟩ := sysStep_next h
          exact kexec_spec hend hs hg.1 ip hg.2.2 hrun
      · cases h
  | free p =>
      simp only [memStep] at h
      split at h
      · next hp =>
          obtain ⟨_, hrun⟩ := sysStep_next h
          obtain ⟨s₁, hrun₁, hs₁, -⟩ := freeproc_spec hend hs hp
          cases hrun.symm.trans hrun₁
          exact hs₁
      · cases h

/-- **RUN**: every reachable state keeps the invariant. -/
theorem sysInv_of_reachable (hend : 0 < kend) {s : MemSys}
    (h : Reachable (memInit kend) (memStep kend trampoline) s) : SysInv kend trampoline s :=
  h.inv memInit_inv fun _ c _ hs hstep => memStep_inv hend hs c hstep

end Steps

/-! ## Past the size -/

/-- `walkaddr` finds nothing where the table has no leaf. -/
theorem walkaddr_of_leaf_none {pt : PageTable} {va : Nat} (h : pt.leaf (PGROUNDDOWN va) = none) :
    walkaddr pt va = 0 := by
  have hl : pt.lookup va = none := by
    unfold PageTable.lookup
    split
    · exact h
    · rfl
  simp [walkaddr, hl]

section Above

variable {kend trampoline : Nat} {s : MemSys} {p : Fin NPROC}

/-- The page of an address past `PGROUNDUP(p->sz)`: no leaf, and a fault
    there maps nothing. -/
theorem page_above (hs : SysInv kend trampoline s) (hp : (s.procs p).used) {va : Nat}
    (hlo : PGROUNDUP (s.procs p).sz ≤ va) (hhi : va < TRAPFRAME) :
    walkaddr (s.table p) (PGROUNDDOWN va) = 0 ∧
      (vmfault kend p (s.procs p).pagetable (PGROUNDDOWN va)).run s = .ok (0, s) := by
  have hok := hs.proc p hp
  -- `PGROUNDUP(sz)` is a page boundary, so the page of `va` starts past it
  have hdown : PGROUNDUP (s.procs p).sz ≤ PGROUNDDOWN va := by
    have := PGROUNDDOWN_mono hlo
    rwa [PGROUNDDOWN_of_mod (PGROUNDUP_mod _)] at this
  have hleaf := hok.shape.free_above hdown (Nat.lt_of_le_of_lt (PGROUNDDOWN_le va) hhi)
  refine ⟨walkaddr_of_leaf_none (by rwa [PGROUNDDOWN_of_mod (PGROUNDDOWN_mod va)]), ?_⟩
  exact vmfault_of_le_sz (Nat.le_trans (le_PGROUNDUP _) hdown)

theorem copyPage_of_walkaddr_zero {pagetable va0 : Nat}
    (h : walkaddr (s.tables pagetable) va0 = 0) :
    (copyPage kend p pagetable va0).run s = (vmfault kend p pagetable va0).run s := by
  simp only [copyPage, StateT.run_bind, StateT.run_get, pure_bind, h, if_true]

/-- **COPYOUT** on behalf of `p` to an address past `PGROUNDUP(p->sz)`
    fails and changes nothing. -/
theorem copyout_above (hs : SysInv kend trampoline s) (hp : (s.procs p).used) {dstva len : Nat}
    (hlen : len ≠ 0) (hlo : PGROUNDUP (s.procs p).sz ≤ dstva) (hhi : dstva < TRAPFRAME) :
    (copyout kend p (s.procs p).pagetable dstva len).run s = .ok (-1, s) := by
  obtain ⟨hwa, hfault⟩ := page_above hs hp hlo hhi
  have hmax : ¬ PGROUNDDOWN dstva ≥ MAXVA := by
    have := PGROUNDDOWN_le dstva
    rw [MAXVA_eq]
    rw [TRAPFRAME_eq] at hhi
    omega
  rw [copyout, copyoutLoop, if_neg hlen]
  dsimp only
  rw [if_neg hmax, StateT.run_bind, copyPage_of_walkaddr_zero hwa, hfault, ok_bind, if_pos rfl]
  rfl

/-- **COPYIN** on behalf of `p` from an address past `PGROUNDUP(p->sz)`
    fails and changes nothing. -/
theorem copyin_above (hs : SysInv kend trampoline s) (hp : (s.procs p).used) {srcva len : Nat}
    (hlen : len ≠ 0) (hlo : PGROUNDUP (s.procs p).sz ≤ srcva) (hhi : srcva < TRAPFRAME) :
    (copyin kend p (s.procs p).pagetable srcva len).run s = .ok (-1, s) := by
  obtain ⟨hwa, hfault⟩ := page_above hs hp hlo hhi
  rw [copyin, copyinLoop, if_neg hlen]
  dsimp only
  rw [StateT.run_bind, copyPage_of_walkaddr_zero hwa, hfault, ok_bind, if_pos rfl]
  rfl

end Above

/-! ## The shape of every address space -/

/-- What a live process `p` of `s` has: a user address space. -/
structure AddressSpace (kend : Nat) (s : MemSys) (p : Fin NPROC) : Prop where
  /-- every leaf but the two on top lies below `PGROUNDUP(p->sz)` -/
  below : ∀ a pte, (s.table p).leaf a = some pte → a ≠ TRAMPOLINE → a ≠ TRAPFRAME →
    a < PGROUNDUP (s.procs p).sz
  /-- at most one user leaf, the stack guard, lacks `PTE_U` -/
  guard : ∀ a b pte pte', (s.table p).leaf a = some pte → (s.table p).leaf b = some pte' →
    a < TRAPFRAME → b < TRAPFRAME → pte.perm.u = false → pte'.perm.u = false → a = b
  /-- a user page is mapped once, by its own process only -/
  own : ∀ q a b pte pte', (s.procs q).used → (s.table p).leaf a = some pte →
    (s.table q).leaf b = some pte' → a < TRAPFRAME → b < TRAPFRAME → pte.pa = pte'.pa →
    q = p ∧ b = a
  trampoline : ∃ pte, (s.table p).leaf TRAMPOLINE = some pte ∧ pte.perm.u = false
  trapframe : ∃ pte, (s.table p).leaf TRAPFRAME = some pte ∧ pte.perm.u = false
  /-- past the size nothing is translated, copied out or copied in -/
  unmapped : ∀ va, PGROUNDUP (s.procs p).sz ≤ va → va < TRAPFRAME →
    walkaddr (s.table p) (PGROUNDDOWN va) = 0
  copyout : ∀ va len, len ≠ 0 → PGROUNDUP (s.procs p).sz ≤ va → va < TRAPFRAME →
    (copyout kend p (s.procs p).pagetable va len).run s = .ok (-1, s)
  copyin : ∀ va len, len ≠ 0 → PGROUNDUP (s.procs p).sz ≤ va → va < TRAPFRAME →
    (copyin kend p (s.procs p).pagetable va len).run s = .ok (-1, s)
  /-- freeing the process returns, never reaching `freewalk: leaf` -/
  freeproc : ∃ s', (freeproc kend p).run s = .ok ((), s')

section Shape

variable {kend trampoline : Nat}

/-- Two live processes' user leaves on one page are one leaf. -/
theorem SysInv.user_page_unique {s : MemSys} (hs : SysInv kend trampoline s) {p q : Fin NPROC}
    (hp : (s.procs p).used) (hq : (s.procs q).used) {a b : Nat} {pte pte' : Pte}
    (hla : (s.table p).leaf a = some pte) (hlb : (s.table q).leaf b = some pte')
    (ha : a < TRAPFRAME) (hb : b < TRAPFRAME) (hpa : pte.pa = pte'.pa) : q = p ∧ b = a := by
  have he := (hs.proc p hp).tracked.leaf a pte hla ha
  have he' := (hs.proc q hq).tracked.leaf b pte' hlb hb
  -- one page has one holder, which names the root and the address
  obtain ⟨hroot, hab⟩ := Holder.user.inj (Prod.mk.inj (held_unique hs.pageInv he he' hpa)).2
  rw [hs.table_root hp, hs.table_root hq] at hroot
  exact ⟨hs.roots q p hq hp hroot.symm, hab.symm⟩

/-- **THE SHAPE OF EVERY ADDRESS SPACE**: in every state that `userinit`,
    `kfork`, `growproc`, `kexec` and `freeproc` reach from boot, every live
    process has a user address space. -/
theorem address_space_shape (hend : 0 < kend) {s : MemSys}
    (hreach : Reachable (memInit kend) (memStep kend trampoline) s) {p : Fin NPROC}
    (hp : (s.procs p).used) : AddressSpace kend s p := by
  have hs := sysInv_of_reachable hend hreach
  have hshape := (hs.proc p hp).shape
  exact {
    below := hshape.below
    guard := hshape.guard
    own := fun q _ _ _ _ hq hla hlb ha hb hpa => hs.user_page_unique hp hq hla hlb ha hb hpa
    trampoline := ⟨_, hshape.trampoline, rfl⟩
    trapframe := ⟨_, hshape.trapframe, rfl⟩
    unmapped := fun _ hlo hhi => (page_above hs hp hlo hhi).1
    copyout := fun _ _ hlen hlo hhi => copyout_above hs hp hlen hlo hhi
    copyin := fun _ _ hlen hlo hhi => copyin_above hs hp hlen hlo hhi
    freeproc := (freeproc_spec hend hs hp).imp fun _ h => h.1 }

/-- After `userinit` on the machine of `smallEnd`, the first process has
    a user address space. -/
theorem address_space_shape_after_userinit :
    ∃ s, Reachable (memInit smallEnd) (memStep smallEnd KERNBASE) s ∧ (s.procs proc0).used ∧
      AddressSpace smallEnd s proc0 := by
  obtain ⟨⟨_, s⟩, hrun, hused⟩ := exists_of_checkOk
    (P := fun r : Unit × MemSys => (r.2.procs proc0).used = true)
    (e := (userinit smallEnd KERNBASE).run (memInit smallEnd)) (by decide)
  have hreach : Reachable (memInit smallEnd) (memStep smallEnd KERNBASE) s :=
    .step .userinit .init (by simp only [memStep, sysStep, hrun])
  exact ⟨s, hreach, hused, address_space_shape (by decide) hreach hused⟩

end Shape

end Xv6.Mem
