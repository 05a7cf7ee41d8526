import Xv6.Mem.Calls

/-! # What `exec` does to memory

    `kexec` builds the new image in a table of its own, at a root that no
    live process has, while the caller keeps its old table; only the commit
    swaps the two.  While it is built the new table keeps `TableInv` over
    the pages of every live process (`LiveOwns`), and the shape of a user
    address space of the size loaded so far, with every user leaf
    user-accessible until `uvmclear` makes the stack guard page.

    * `SysInv.of_tables`: the process table's invariant survives a change
      of physical memory and of tables no live process uses, when every
      live page stays held;
    * `loadSegments_spec`: the loop over the program headers keeps the new
      image's invariant, of the size it answers, also when it fails;
    * `copyoutLoop_of_mapped`: `copyout` over pages mapped with `PTE_U` and
      `PTE_W` needs no fault and changes no state, which is how the
      arguments reach the new stack;
    * `kexec_spec`: `kexec` keeps `SysInv` whenever it returns, for the
      argument strings `sys_exec` passes (each shorter than a page). -/

namespace Xv6.Mem

open StateExcept

/-- The pages of every live process. -/
def LiveOwns (s : MemSys) (e : Nat × Holder) : Prop :=
  ∃ q, (s.procs q).used ∧ Owns q (s.procs q) (s.table q) e

/-- Every user leaf is user-accessible: the new image before `uvmclear`. -/
def UserLeaves (pt : PageTable) : Prop :=
  ∀ a pte, pt.leaf a = some pte → a < TRAPFRAME → pte.perm.u = true

section Tables

variable {kend trampoline : Nat}

/-- **The rule of other tables**: the invariant of the process table
    holds after a change that keeps the slots, the tables of the live
    processes and every page they hold. -/
theorem SysInv.of_tables {s s' : MemSys} (hs : SysInv kend trampoline s)
    (hprocs : s'.procs = s.procs) (hpage : PageInv kend s'.pm)
    (hheld : ∀ e, LiveOwns s e → e ∈ s'.pm.held)
    (htables : ∀ q, (s.procs q).used → s'.table q = s.table q) : SysInv kend trampoline s' where
  pageInv := hpage
  unused q hq := by
    rw [hprocs] at hq ⊢
    exact hs.unused q hq
  proc q hq := by
    rw [hprocs] at hq
    rw [htables q hq, hprocs]
    exact (hs.proc q hq).mono fun e he => hheld e ⟨q, hq, he⟩
  roots q r hq hr := by
    rw [hprocs] at hq hr ⊢
    exact hs.roots q r hq hr

/-- The pages of the live processes are held, and none is under a root
    that no live process has. -/
theorem SysInv.liveOwns_held {s : MemSys} (hs : SysInv kend trampoline s) {e : Nat × Holder}
    (he : LiveOwns s e) : e ∈ s.pm.held := by
  obtain ⟨q, hq, hown⟩ := he
  exact (hs.proc q hq).owns hown

/-- The root of every holder of a live page is a held root page. -/
theorem SysInv.liveOwns_root {s : MemSys} (hs : SysInv kend trampoline s) {e : Nat × Holder}
    (he : LiveOwns s e) {r : Nat} (hr : e.2.under r) : (r, .table r 2 0) ∈ s.pm.held := by
  obtain ⟨q, hq, hu | rfl⟩ := he
  · rw [Holder.under_unique hr hu.under]
    exact (hs.proc q hq).tracked.root
  · exact absurd hr id

end Tables

/-! ## Copying out to mapped pages -/

/-- Every page of `[PGROUNDDOWN(va), va + len)` is mapped in `pt` with
    `PTE_U` and `PTE_W`. -/
def Writable (pt : PageTable) (va len : Nat) : Prop :=
  ∀ x, PGROUNDDOWN va ≤ x → x < va + len → x % PGSIZE = 0 →
    ∃ pte, pt.leaf x = some pte ∧ pte.perm.u = true ∧ pte.perm.w = true ∧ pte.pa ≠ 0

theorem PGROUNDDOWN_le (a : Nat) : PGROUNDDOWN a ≤ a := Nat.div_mul_le_self a PGSIZE

/-- `walkaddr` finds the page of a user leaf. -/
theorem walkaddr_of_leaf {pt : PageTable} (hwf : WF pt) {va : Nat} {pte : Pte} (hva : va < MAXVA)
    (hal : va % PGSIZE = 0) (hl : pt.leaf va = some pte) (hu : pte.perm.u = true) :
    walkaddr pt va = pte.pa := by
  rw [walkaddr, if_neg (Nat.not_le.mpr hva), hwf.lookup_eq hal, hl]
  simp [hu]

/-- Both tables above a leaf are valid. -/
theorem WF.valid_of_leaf {pt : PageTable} (hwf : WF pt) {a : Nat} {pte : Pte}
    (hl : pt.leaf a = some pte) : pt.l1 (key1 a) ≠ 0 ∧ pt.l0 (key0 a) ≠ 0 := by
  have h0 := hwf.leaf_l0 a pte hl
  exact ⟨key0_div a ▸ hwf.l0_l1 _ h0, h0⟩

/-- Code that reads a table and leaves it as it was leaves the system as
    it was. -/
theorem onTable_run_same {α : Type} {r : Nat} {m : VmM α} {s : MemSys} {a : α}
    (h : m.run ⟨s.tables r, s.pm⟩ = .ok (a, ⟨s.tables r, s.pm⟩)) : (onTable r m).run s = .ok (a, s) := by
  rw [onTable_run h, Function.update_eq_self]

section Copy

variable {kend : Nat}

theorem copyPage_of_walkaddr {p : Fin NPROC} {pagetable va0 : Nat} {s : MemSys}
    (h : walkaddr (s.tables pagetable) va0 ≠ 0) :
    (copyPage kend p pagetable va0).run s = .ok (walkaddr (s.tables pagetable) va0, s) := by
  simp only [copyPage, StateT.run_bind, StateT.run_get, pure_bind, if_neg h]
  rfl

/-- **COPYOUT** to pages the table maps user-writable: every round finds
    its page by `walkaddr` and its PTE by `walk`, so the copy succeeds
    without calling `vmfault` and changes no state. -/
theorem copyoutLoop_of_mapped {p : Fin NPROC} {pagetable : Nat} {s : MemSys}
    (hwf : WF (s.tables pagetable)) :
    ∀ fuel dstva len, dstva + len ≤ MAXVA → Writable (s.tables pagetable) dstva len →
      (copyoutLoop kend p pagetable fuel dstva len).run s = .ok (0, s) := by
  intro fuel
  induction fuel with
  | zero => intro _ _ _ _; rfl
  | succ fuel ih =>
      intro dstva len hmax hw
      rw [copyoutLoop]
      by_cases hlen : len = 0
      · rw [if_pos hlen]
        rfl
      rw [if_neg hlen]
      -- the page of `dstva` is mapped user-writable
      have hdown := PGROUNDDOWN_le dstva
      obtain ⟨pte, hl, hu, hwr, hpa⟩ := hw (PGROUNDDOWN dstva) (Nat.le_refl _) (by omega)
        (PGROUNDDOWN_mod dstva)
      have hva0 : PGROUNDDOWN dstva < MAXVA := by omega
      have hwa := walkaddr_of_leaf hwf hva0 (PGROUNDDOWN_mod dstva) hl hu
      obtain ⟨h1, h0⟩ := hwf.valid_of_leaf hl
      have hwalk : (walk (PGROUNDDOWN dstva) false).run ⟨s.tables pagetable, s.pm⟩ =
          .ok (some (PGROUNDDOWN dstva), ⟨s.tables pagetable, s.pm⟩) := by
        rw [walk_false_run hva0, if_pos ⟨h1, h0⟩, PGROUNDDOWN_of_mod (PGROUNDDOWN_mod dstva)]
      dsimp only
      rw [if_neg (Nat.not_le.mpr hva0), StateT.run_bind,
        copyPage_of_walkaddr (by rw [hwa]; exact hpa), ok_bind, hwa, if_neg hpa, StateT.run_bind,
        onTable_run_same hwalk, ok_bind]
      rw [StateT.run_bind, StateT.run_get, pure_bind]
      simp only [hl, Option.any_some, hwr, if_true]
      -- the rest of the range starts at the next page, and ends where it did
      have hal := PGROUNDDOWN_mod dstva
      have hoff : dstva - PGROUNDDOWN dstva < PGSIZE := by
        unfold PGROUNDDOWN PGSIZE
        omega
      have hnext : PGROUNDDOWN (PGROUNDDOWN dstva + PGSIZE) = PGROUNDDOWN dstva + PGSIZE :=
        PGROUNDDOWN_of_mod (by rw [Nat.add_mod_right]; exact hal)
      rw [MAXVA_eq] at hmax hva0
      unfold PGSIZE at hal hoff hnext ⊢
      refine ih (PGROUNDDOWN dstva + 4096) _ (by rw [MAXVA_eq]; omega) fun x h1 h2 h3 => hw x ?_ ?_ h3 <;> omega

end Copy

/-! ## Loading the program -/

section Load

variable {kend : Nat} {O : Nat × Holder → Prop}

/-- `loadseg` only reads the table. -/
theorem loadsegLoop_state (va : Nat) (ip : ExecFile) (offset sz : Nat) :
    ∀ (fuel i : Nat) {v v' : Vm} {r : Int},
      (loadsegLoop va ip offset sz fuel i).run v = .ok (r, v') → v' = v
  | 0, _, v, v', r, h => by
      simp only [loadsegLoop] at h
      cases h
      rfl
  | fuel + 1, i, v, v', r, h => by
      rw [loadsegLoop] at h
      split at h
      · rw [StateT.run_bind, StateT.run_get, pure_bind] at h
        split at h
        · exact nomatch h
        · -- one page of the segment is read from the file
          dsimp only at h
          generalize (if sz - i < PGSIZE then sz - i else PGSIZE) = n at h
          split at h
          · exact loadsegLoop_state va ip offset sz fuel (i + PGSIZE) h
          · cases h
            rfl
      · cases h
        rfl

theorem loadseg_state {va : Nat} {ip : ExecFile} {offset sz : Nat} {v v' : Vm} {r : Int}
    (h : (loadseg va ip offset sz).run v = .ok (r, v')) : v' = v :=
  loadsegLoop_state va ip offset sz _ 0 h

/-- What `uvmalloc` maps is user-accessible. -/
theorem UserLeaves.uvmalloc {pt pt' : PageTable} (h : UserLeaves pt) {sz newsz a : Nat}
    {xperm : Perm}
    (hres : (newsz < sz ∧ a = sz ∧ pt'.leaf = pt.leaf) ∨
      (a = newsz ∧ sz ≤ newsz ∧ newsz ≤ TRAPFRAME ∧
        Grown (PGROUNDUP sz) newsz (PTE_R ||| PTE_U ||| xperm) pt.leaf pt'.leaf) ∨
      (a = 0 ∧ pt'.leaf = pt.leaf)) :
    UserLeaves pt' := by
  intro x pte hl hx
  rcases hres with ⟨-, -, hsame⟩ | ⟨-, -, -, hgrow, hkeep⟩ | ⟨-, hsame⟩
  · rw [hsame] at hl
    exact h x pte hl hx
  · by_cases hin : PGROUNDUP sz ≤ x ∧ x < newsz ∧ x % PGSIZE = 0
    · obtain ⟨pa, hpa⟩ := hgrow x hin.1 hin.2.1 hin.2.2
      rw [hpa] at hl
      cases hl
      rfl
    · rw [hkeep x hin] at hl
      exact h x pte hl hx
  · rw [hsame] at hl
    exact h x pte hl hx

/-- **LOAD**: the loop over the program headers keeps the new table's
    invariant and its shape, of the size it answers, whether it finishes
    or stops at a bad header (`goto bad`). -/
theorem loadSegments_spec (hend : 0 < kend) {trampoline tf : Nat} (ip : ExecFile) :
    ∀ (n off sz : Nat) {v : Vm} {res : Nat × Bool} {v' : Vm}, TableInv kend O v →
      Shape trampoline sz tf v.pt → UserLeaves v.pt →
      (loadSegments kend ip n off sz).run v = .ok (res, v') →
      TableInv kend O v' ∧ v'.pt.root = v.pt.root ∧ Shape trampoline res.1 tf v'.pt ∧
        UserLeaves v'.pt
  | 0, _, sz, v, res, v', hinv, hshape, huser, h => by
      simp only [loadSegments] at h
      cases h
      exact ⟨hinv, rfl, hshape, huser⟩
  | n + 1, off, sz, v, res, v', hinv, hshape, huser, h => by
      simp only [loadSegments] at h
      split at h
      · cases h
        exact ⟨hinv, rfl, hshape, huser⟩
      split at h
      · exact loadSegments_spec hend ip n _ sz hinv hshape huser h
      split at h
      · cases h
        exact ⟨hinv, rfl, hshape, huser⟩
      split at h
      · cases h
        exact ⟨hinv, rfl, hshape, huser⟩
      split at h
      · cases h
        exact ⟨hinv, rfl, hshape, huser⟩
      -- a loadable segment: grow the image up to its end
      obtain ⟨sz₁, v₁, hrun₁, hrest⟩ := run_bind_eq_ok h
      obtain ⟨hinv₁, hroot₁, hres₁⟩ := uvmalloc_spec hend hinv _ hshape.below_trapframe
        (by rw [hshape.trapframe]; rfl) (fun x hx hlt => hshape.free_above hx hlt) hrun₁
      have hshape₁ := hshape.uvmalloc (by rfl) hres₁
      have huser₁ := huser.uvmalloc hres₁
      split at hrest
      · next h0 =>
          cases hrest
          rw [if_pos h0] at hshape₁
          exact ⟨hinv₁, hroot₁, hshape₁, huser₁⟩
      · next h0 =>
          rw [if_neg h0] at hshape₁
          obtain ⟨r, v₂, hrun₂, hrest'⟩ := run_bind_eq_ok hrest
          cases loadseg_state hrun₂
          split at hrest'
          · cases hrest'
            exact ⟨hinv₁, hroot₁, hshape₁, huser₁⟩
          · obtain ⟨hinv', hroot', hshape', huser'⟩ :=
              loadSegments_spec hend ip n _ sz₁ hinv₁ hshape₁ huser₁ hrest'
            exact ⟨hinv', hroot'.trans hroot₁, hshape', huser'⟩

end Load

/-! ## The stack guard page -/

section Clear

variable {kend : Nat} {O : Nat × Holder → Prop}

/-- **UVMCLEAR** keeps the table invariant: the one leaf at `va`'s page
    loses `PTE_U` and keeps its page. -/
theorem uvmclear_spec {s : Vm} (hinv : TableInv kend O s) {va : Nat} (hva : va < MAXVA) {s' : Vm}
    (h : (uvmclear va).run s = .ok ((), s')) :
    TableInv kend O s' ∧ s'.pt.root = s.pt.root ∧
      s'.pt.leaf = Function.update s.pt.leaf (PGROUNDDOWN va)
        ((s.pt.leaf (PGROUNDDOWN va)).map fun pte => { pte with perm := { pte.perm with u := false } }) := by
  rw [uvmclear, StateT.run_bind, walk_false_run hva, ok_bind] at h
  by_cases hc : s.pt.l1 (key1 va) ≠ 0 ∧ s.pt.l0 (key0 va) ≠ 0
  · rw [if_pos hc] at h
    cases h
    refine ⟨?_, rfl, rfl⟩
    -- the leaf keeps its page, so what it holds stays held
    dsimp only
    cases hl : s.pt.leaf (PGROUNDDOWN va) with
    | none => exact hinv.clearLeaf _
    | some pte =>
        have hwf := hinv.wf
        exact hinv.setLeaf (hwf.leaf_aligned _ pte hl) (hwf.leaf_l0 _ pte hl)
          fun ha => hinv.tracked.leaf _ pte hl ha
  · rw [if_neg hc] at h
    exact nomatch h

end Clear

section ClearShape

variable {trampoline sz tf : Nat}

/-- Clearing `PTE_U` of one user leaf of an image whose user leaves all
    have it keeps the shape: that leaf is then the only one without. -/
theorem Shape.uvmclear {pt pt' : PageTable} (h : Shape trampoline sz tf pt) (huser : UserLeaves pt)
    {k : Nat} (hk : k < TRAPFRAME)
    (hleaf : pt'.leaf = Function.update pt.leaf k
      ((pt.leaf k).map fun pte => { pte with perm := { pte.perm with u := false } })) :
    Shape trampoline sz tf pt' := by
  have hsame : ∀ x, x ≠ k → pt'.leaf x = pt.leaf x := fun x hx => by
    rw [hleaf, Function.update_of_ne hx]
  have hTR : TRAMPOLINE ≠ k := Nat.ne_of_gt (Nat.lt_trans hk TRAPFRAME_lt_TRAMPOLINE)
  -- a leaf without `PTE_U` below the trapframe is the cleared one
  have honly : ∀ a pte, pt'.leaf a = some pte → a < TRAPFRAME → pte.perm.u = false → a = k := by
    intro a pte hl ha hu
    by_contra hak
    rw [hsame a hak] at hl
    rw [huser a pte hl ha] at hu
    exact nomatch hu
  refine ⟨h.sz_le, ?_, ?_, ?_, ?_⟩
  · rw [hsame _ hTR]
    exact h.trampoline
  · rw [hsame _ (Nat.ne_of_gt hk)]
    exact h.trapframe
  · intro a pte hl h1 h2
    by_cases hak : a = k
    · subst hak
      rw [hleaf, Function.update_self] at hl
      obtain ⟨pte₀, hl₀, -⟩ := Option.map_eq_some_iff.mp hl
      exact h.below a pte₀ hl₀ h1 h2
    · rw [hsame a hak] at hl
      exact h.below a pte hl h1 h2
  · intro a b pte pte' hla hlb ha hb hua hub
    rw [honly a pte hla ha hua, honly b pte' hlb hb hub]

/-- The shape of a size is the shape of its page-rounded size. -/
theorem Shape.roundup {pt : PageTable} (h : Shape trampoline sz tf pt) :
    Shape trampoline (PGROUNDUP sz) tf pt where
  sz_le := h.below_trapframe
  trampoline := h.trampoline
  trapframe := h.trapframe
  below a pte hl h1 h2 := by
    rw [PGROUNDUP_of_mod (PGROUNDUP_mod sz)]
    exact h.below a pte hl h1 h2
  guard := h.guard

end ClearShape

/-! ## The arguments on the new stack -/

/-- `sp - n`, rounded down to 16 bytes as the RISC-V stack must be, is the
    number it stands for when it does not wrap. -/
theorem toNat_sub_align {sp : UInt64} {n : Nat} (hn : n ≤ sp.toNat) :
    (sp - UInt64.ofNat n - (sp - UInt64.ofNat n) % 16).toNat = (sp.toNat - n) - (sp.toNat - n) % 16 := by
  have hlt := sp.toNat_lt
  have h₁ : (sp - UInt64.ofNat n).toNat = sp.toNat - n := by
    have hofNat : (UInt64.ofNat n).toNat = n := UInt64.toNat_ofNat_of_lt' (Nat.lt_of_le_of_lt hn hlt)
    rw [UInt64.toNat_sub_of_le _ _ (UInt64.le_iff_toNat_le.mpr (by omega)), hofNat]
  have h₂ : ((sp - UInt64.ofNat n) % 16).toNat = (sp.toNat - n) % 16 := by
    rw [UInt64.toNat_mod, h₁]
    rfl
  rw [UInt64.toNat_sub_of_le _ _ (UInt64.le_iff_toNat_le.mpr (by rw [h₂, h₁]; exact Nat.mod_le _ _)),
    h₁, h₂]

theorem PGROUNDDOWN_mono {a b : Nat} (h : a ≤ b) : PGROUNDDOWN a ≤ PGROUNDDOWN b :=
  Nat.mul_le_mul_right _ (Nat.div_le_div_right h)

theorem Writable.mono {pt : PageTable} {lo n a m : Nat} (h : Writable pt lo n) (hlo : lo ≤ a)
    (hhi : a + m ≤ lo + n) : Writable pt a m :=
  fun x h1 h2 h3 => h x (Nat.le_trans (PGROUNDDOWN_mono hlo) h1) (by omega) h3

section Args

variable {kend : Nat}

/-- **COPYOUT** into a window of writable pages returns `0` and changes
    no state. -/
theorem copyout_of_window {p : Fin NPROC} {pagetable : Nat} {s : MemSys}
    (hwf : WF (s.tables pagetable)) {lo hi : Nat} (hmax : hi ≤ MAXVA)
    (hw : Writable (s.tables pagetable) lo (hi - lo)) {dstva len : Nat} (hlo : lo ≤ dstva)
    (hhi : dstva + len ≤ hi) : (copyout kend p pagetable dstva len).run s = .ok (0, s) :=
  copyoutLoop_of_mapped hwf _ _ _ (by omega) (hw.mono hlo (by omega))

/-- **The argument strings**: each, shorter than a page as `sys_exec`
    fetched it, is pushed below `sp` without wrapping, into the window
    `[stackbase, hi)` of pages the new table maps writable; the pushes
    change no state, and the `sp` and `argc` they end with stay in the
    window and within `MAXARG`. -/
theorem pushArgs_state {p : Fin NPROC} {pagetable : Nat} {stackbase : UInt64} {s : MemSys}
    (hwf : WF (s.tables pagetable)) (hbase : PGSIZE ≤ stackbase.toNat) {hi : Nat} (hmax : hi ≤ MAXVA)
    (hw : Writable (s.tables pagetable) stackbase.toNat (hi - stackbase.toNat)) :
    ∀ (argv : List Nat) (argc : Nat) (sp : UInt64) {res : Option (Nat × UInt64)} {s' : MemSys},
      (∀ l ∈ argv, l < PGSIZE) → stackbase.toNat ≤ sp.toNat → sp.toNat ≤ hi → argc ≤ MAXARG →
      (pushArgs kend p pagetable stackbase argv argc sp).run s = .ok (res, s') →
      s' = s ∧ ∀ argc' sp', res = some (argc', sp') →
        stackbase.toNat ≤ sp'.toNat ∧ sp'.toNat ≤ hi ∧ argc' ≤ MAXARG := by
  intro argv
  induction argv with
  | nil =>
      intro argc sp res s' _ hlo hhi hargc h
      cases h
      refine ⟨rfl, fun argc' sp' he => ?_⟩
      cases he
      exact ⟨hlo, hhi, hargc⟩
  | cons len argv ih =>
      intro argc sp res s' hlen hlo hhi hargc h
      rw [pushArgs] at h
      by_cases hmaxarg : argc ≥ MAXARG
      · rw [if_pos hmaxarg] at h
        cases h
        exact ⟨rfl, fun _ _ he => nomatch he⟩
      rw [if_neg hmaxarg] at h
      dsimp only at h
      -- the string and its `0` fit below `sp`: no wrap
      have hl := hlen len (List.mem_cons_self ..)
      have hsp : _ = sp.toNat - (len + 1) - (sp.toNat - (len + 1)) % 16 := toNat_sub_align (by omega)
      generalize sp - UInt64.ofNat (len + 1) - (sp - UInt64.ofNat (len + 1)) % 16 = sp₂ at h hsp
      by_cases hbelow : sp₂ < stackbase
      · rw [if_pos hbelow] at h
        cases h
        exact ⟨rfl, fun _ _ he => nomatch he⟩
      rw [if_neg hbelow] at h
      have hlo₂ : stackbase.toNat ≤ sp₂.toNat := Nat.le_of_not_lt (mt UInt64.lt_iff_toNat_lt.mpr hbelow)
      have hhi₂ : sp₂.toNat + (len + 1) ≤ sp.toNat := by
        rw [hsp]
        have := Nat.mod_le (sp.toNat - (len + 1)) 16
        omega
      rw [StateT.run_bind, copyout_of_window hwf hmax hw hlo₂ (by omega), ok_bind,
        if_neg (Int.lt_irrefl 0)] at h
      exact ih (argc + 1) sp₂ (fun l hm => hlen l (List.mem_cons_of_mem _ hm)) hlo₂ (by omega)
        (by omega) h

end Args

/-! ## The new image beside the old one -/

section Image

variable {kend trampoline : Nat}

/-- The system while `kexec` of `p` builds its new image of `sz` bytes in
    the table at root `r`: the slots and the live tables are those of `s`;
    `r` is no live process's root, and its table keeps the pages of every
    live process and has the shape of a user address space with `p`'s
    trapframe. -/
structure Image (kend trampoline : Nat) (s : MemSys) (p : Fin NPROC) (r sz : Nat) (s' : MemSys) :
    Prop where
  procs : s'.procs = s.procs
  tables : ∀ q, (s.procs q).used → s'.table q = s.table q
  fresh : ∀ q, (s.procs q).used → (s.procs q).pagetable ≠ r
  inv : TableInv kend (LiveOwns s) ⟨s'.tables r, s'.pm⟩
  root : (s'.tables r).root = r
  shape : Shape trampoline sz (s.procs p).trapframe (s'.tables r)

variable {s s' : MemSys} {p : Fin NPROC} {r sz : Nat}

/-- Writing the table at `r` leaves the live tables. -/
theorem Image.table_update (hi : Image kend trampoline s p r sz s') (pt : PageTable) (pm : PhysMem)
    {q : Fin NPROC} (hq : (s.procs q).used) :
    MemSys.table ⟨s'.procs, Function.update s'.tables r pt, pm⟩ q = s.table q := by
  rw [table_update_of_ne rfl (by rw [hi.procs]; exact hi.fresh q hq)]
  exact hi.tables q hq

/-- Code of `vm.c` run on the new table keeps the image, of the size whose
    shape it leaves. -/
theorem Image.update (hi : Image kend trampoline s p r sz s') {v : Vm}
    (hinv : TableInv kend (LiveOwns s) v) (hroot : v.pt.root = (s'.tables r).root) {sz' : Nat}
    (hshape : Shape trampoline sz' (s.procs p).trapframe v.pt) :
    Image kend trampoline s p r sz' { s' with tables := Function.update s'.tables r v.pt, pm := v.pm } where
  procs := hi.procs
  tables q hq := hi.table_update v.pt v.pm hq
  fresh := hi.fresh
  inv := by
    simp only [Function.update_self]
    exact hinv
  root := by
    simp only [Function.update_self]
    exact hroot.trans hi.root
  shape := by
    simp only [Function.update_self]
    exact hshape

/-- `bad:` frees the new table and keeps the invariant. -/
theorem Image.bad (hs : SysInv kend trampoline s) (hi : Image kend trampoline s p r sz s') {x : Int}
    {s'' : MemSys} (h : (execBad kend r sz).run s' = .ok (x, s'')) : SysInv kend trampoline s'' := by
  obtain ⟨v, hrun, hpage, hkept⟩ := proc_freepagetable_spec hi.inv hi.shape.sz_le hi.shape.below
  rw [execBad, StateT.run_bind, onTable_run hrun, ok_bind] at h
  cases h
  exact hs.of_tables hi.procs hpage hkept fun q hq => hi.table_update v.pt v.pm hq

/-- `p`'s old table is where it was. -/
theorem Image.old_table (hi : Image kend trampoline s p r sz s') (hp : (s.procs p).used) :
    s'.tables (s.procs p).pagetable = s.table p := by
  have := hi.tables p hp
  rwa [MemSys.table, hi.procs] at this

/-- The old table, beside the new one: the others' pages, the trapframe
    and the new table's pages stay while it is freed. -/
theorem Image.old_inv (hs : SysInv kend trampoline s) (hp : (s.procs p).used)
    (hi : Image kend trampoline s p r sz s') :
    TableInv kend (fun e => Others s p e ∨ e = ((s.procs p).trapframe, .trapframe p) ∨
      UseOf (s'.tables r) e) ⟨s'.tables (s.procs p).pagetable, s'.pm⟩ := by
  rw [hi.old_table hp]
  refine ⟨hi.inv.pageInv, (hs.proc p hp).wf,
    Tracked.of_use fun e hu => hi.inv.others e ⟨p, hp, .inl hu⟩, ?_, ?_⟩
  · rintro e (⟨q, -, hq, he⟩ | rfl | hu)
    · exact hi.inv.others e ⟨q, hq, he⟩
    · exact hi.inv.others _ ⟨p, hp, .inr rfl⟩
    · exact hi.inv.tracked.use hu
  · rintro e (he | rfl | hu)
    · exact hs.others_apart hp he
    · exact id
    · intro hunder
      have hroot := Holder.under_unique hu.under hunder
      rw [hi.root, hs.table_root hp] at hroot
      exact hi.fresh p hp hroot.symm

/-- **The commit**: `p` takes the new table and size, and its old table is
    freed with its old size; the invariant holds after. -/
theorem Image.commit (hs : SysInv kend trampoline s) (hp : (s.procs p).used)
    (hi : Image kend trampoline s p r sz s') :
    ∃ v, (proc_freepagetable kend (s.procs p).sz).run ⟨s'.tables (s.procs p).pagetable, s'.pm⟩ =
        .ok ((), v) ∧
      SysInv kend trampoline ⟨Function.update s'.procs p { s'.procs p with pagetable := r, sz },
        Function.update s'.tables (s.procs p).pagetable v.pt, v.pm⟩ := by
  have hok := hs.proc p hp
  have hold := hi.old_table hp
  have hne : (s.procs p).pagetable ≠ r := hi.fresh p hp
  obtain ⟨v, hrun, hpage, hkept⟩ := proc_freepagetable_spec (hi.old_inv hs hp) hok.shape.sz_le
    (by rw [hold]; exact hok.shape.below)
  refine ⟨v, hrun, hs.frame p hpage (fun q hq => ?_) (fun q hq hqu => ?_) (fun e he => hkept e (.inl he))
    (fun h => by simp [hi.procs, hp] at h) (fun _ => ?_) (fun _ q hq hqu => ?_)⟩
  · exact (Function.update_of_ne hq _ _).trans (congrFun hi.procs q)
  · rw [table_update_of_ne (by rw [Function.update_of_ne hq])
      (by rw [hi.procs]; exact fun heq => hq (hs.roots q p hqu hp heq))]
    exact hi.tables q hqu
  · -- the new slot: its root is `r`, whose table keeps its pages
    have htable : MemSys.table ⟨Function.update s'.procs p { s'.procs p with pagetable := r, sz },
        Function.update s'.tables (s.procs p).pagetable v.pt, v.pm⟩ p = s'.tables r := by
      simp only [MemSys.table, Function.update_self]
      exact Function.update_of_ne hne.symm _ _
    rw [htable]
    simp only [Function.update_self, hi.procs]
    exact ⟨hi.root, hi.inv.wf, Tracked.of_use fun e hu => hkept e (.inr (.inr hu)),
      hkept _ (.inr (.inl rfl)), hi.shape⟩
  · simp only [Function.update_self]
    exact (hi.fresh q hqu).symm

end Image

/-! ## `kexec` -/

section Exec

variable {kend trampoline : Nat} {s : MemSys} {p : Fin NPROC}

/-- **PROC_PAGETABLE** for `kexec`: no table, and the invariant holds, or a
    table at a fresh root that starts an image of size `0`. -/
theorem Image.create (hend : 0 < kend) (hs : SysInv kend trampoline s) (p : Fin NPROC) :
    ∃ r s₁, (proc_pagetable kend trampoline p).run s = .ok (r, s₁) ∧
      (r = 0 → SysInv kend trampoline s₁ ∧ s₁.procs = s.procs ∧
        ∀ q, (s.procs q).used → s₁.table q = s.table q) ∧
      (r ≠ 0 → Image kend trampoline s p r 0 s₁ ∧ UserLeaves (s₁.tables r)) := by
  obtain ⟨r, s₁, hrun, hprocs, hpage, hheld, hkeep, hnew⟩ :=
    proc_pagetable_spec hend trampoline hs.pageInv (fun e he => hs.liveOwns_held he)
      (fun e he r hr => hs.liveOwns_root he hr) p
  -- the live roots are held pages, whose tables stay
  have htables : ∀ q, (s.procs q).used → s₁.table q = s.table q := fun q hq => by
    rw [MemSys.table, hprocs]
    exact hkeep _ (hs.root_held hq)
  refine ⟨r, s₁, hrun, fun _ => ⟨hs.of_tables hprocs hpage hheld htables, hprocs, htables⟩,
    fun hr => ?_⟩
  obtain ⟨hfresh, hinv, hroot, hleaf⟩ := hnew hr
  refine ⟨⟨hprocs, htables, fun q hq => hfresh _ (hs.root_held hq), hinv, hroot,
    shape_topLeaves (Nat.zero_le _) hleaf⟩, fun a pte hl ha => ?_⟩
  rw [hleaf, topLeaves_eq_none (by rw [TRAMPOLINE_eq]; rw [TRAPFRAME_eq] at ha; omega)
    (Nat.ne_of_lt ha)] at hl
  cases hl

/-- **What `execStack` does**: `uvmalloc` grows the image by the two
    stack pages, and a failure there is `bad:`; otherwise `uvmclear` takes
    `PTE_U` from the lower one, and from there the run ends in `bad:` or in
    the commit, the argument pushes changing no state.  Each intermediate
    state is an image. -/
theorem execStack_cases (hend : 0 < kend) {r sz : Nat} {s' : MemSys} (hi : Image kend trampoline s p r sz s') (huser : UserLeaves (s'.tables r))
    {argv : List Nat} (hargv : ∀ l ∈ argv, l < PGSIZE) {x : Int} {s'' : MemSys}
    (h : (execStack kend p r sz argv).run s' = .ok (x, s'')) :
    ∃ sz₁ v₁, (uvmalloc kend (PGROUNDUP sz) (PGROUNDUP sz + (USERSTACK + 1) * PGSIZE) PTE_W).run
        ⟨s'.tables r, s'.pm⟩ = .ok (sz₁, v₁) ∧
      ((sz₁ = 0 ∧ Image kend trampoline s p r (PGROUNDUP sz)
          { s' with tables := Function.update s'.tables r v₁.pt, pm := v₁.pm } ∧
          (execBad kend r (PGROUNDUP sz)).run
            { s' with tables := Function.update s'.tables r v₁.pt, pm := v₁.pm } = .ok (x, s'')) ∨
        (∃ v₂, (uvmclear (sz₁ - (USERSTACK + 1) * PGSIZE)).run v₁ = .ok ((), v₂) ∧
          Image kend trampoline s p r sz₁ { s' with tables := Function.update s'.tables r v₂.pt, pm := v₂.pm } ∧
          ((execBad kend r sz₁).run
              { s' with tables := Function.update s'.tables r v₂.pt, pm := v₂.pm } = .ok (x, s'') ∨
            ∃ v, (proc_freepagetable kend (s.procs p).sz).run
                ⟨Function.update s'.tables r v₂.pt (s.procs p).pagetable, v₂.pm⟩ = .ok ((), v) ∧
              s'' = ⟨Function.update s'.procs p { s'.procs p with pagetable := r, sz := sz₁ },
                Function.update (Function.update s'.tables r v₂.pt) (s.procs p).pagetable v.pt, v.pm⟩))) := by
  have holdsz : (s'.procs p).sz = (s.procs p).sz := by rw [hi.procs]
  rw [execStack, StateT.run_bind, StateT.run_get, pure_bind, holdsz] at h
  dsimp only at h
  have hshape := hi.shape.roundup
  obtain ⟨sz₁, s₁, hrun₁, h⟩ := run_bind_eq_ok h
  obtain ⟨v₁, hv₁, hs₁⟩ := onTable_run_eq_ok hrun₁
  obtain ⟨hinv₁, hroot₁, hres₁⟩ := uvmalloc_spec hend hi.inv PTE_W hshape.below_trapframe
    (by rw [hshape.trapframe]; rfl) (fun x hx hlt => hshape.free_above hx hlt) hv₁
  have hshape₁ := hshape.uvmalloc (by rfl) hres₁
  have huser₁ := huser.uvmalloc hres₁
  refine ⟨sz₁, v₁, hv₁, ?_⟩
  by_cases h0 : sz₁ = 0
  · rw [if_pos h0] at h hshape₁
    exact .inl ⟨h0, hi.update hinv₁ hroot₁ hshape₁, hs₁ ▸ h⟩
  rw [if_neg h0] at h hshape₁
  have hi₁ : Image kend trampoline s p r sz₁ s₁ := hs₁ ▸ hi.update hinv₁ hroot₁ hshape₁
  have htab₁ : s₁.tables r = v₁.pt := by
    rw [hs₁]
    exact Function.update_self ..
  -- `uvmalloc` grew the image by the two pages of the stack
  have hstack : (USERSTACK + 1) * PGSIZE = 2 * PGSIZE := rfl
  obtain ⟨hsz₁, hle₁, hgrow₁, -⟩ : sz₁ = PGROUNDUP sz + 2 * PGSIZE ∧ sz₁ ≤ TRAPFRAME ∧
      Grown (PGROUNDUP (PGROUNDUP sz)) sz₁ (PTE_R ||| PTE_U ||| PTE_W) (s'.tables r).leaf v₁.pt.leaf := by
    rw [hstack] at hres₁
    rcases hres₁ with ⟨hlt, -⟩ | ⟨ha, -, hle, hg⟩ | ⟨ha, -⟩
    · omega
    · exact ⟨ha, ha ▸ hle, ha ▸ hg⟩
    · exact absurd ha h0
  have hal₁ : sz₁ % PGSIZE = 0 := by
    rw [hsz₁, Nat.add_mul_mod_self_right]
    exact PGROUNDUP_mod sz
  have hTF := TRAPFRAME_eq
  have hPG : PGSIZE = 4096 := rfl
  -- the lower stack page loses `PTE_U`
  obtain ⟨⟨⟩, s₂, hrun₂, h⟩ := run_bind_eq_ok h
  obtain ⟨v₂, hv₂, hs₂⟩ := onTable_run_eq_ok hrun₂
  obtain ⟨hinv₂, hroot₂, hleaf₂⟩ := uvmclear_spec hi₁.inv (by rw [hstack, MAXVA_eq]; omega) hv₂
  rw [hstack] at hleaf₂
  have hguard : sz₁ - 2 * PGSIZE = PGROUNDDOWN (sz₁ - 2 * PGSIZE) :=
    (PGROUNDDOWN_of_mod (by rw [hPG] at hal₁ ⊢; omega)).symm
  have hshape₂ := hi₁.shape.uvmclear (htab₁ ▸ huser₁) (by rw [← hguard]; omega) hleaf₂
  have hi₂ : Image kend trampoline s p r sz₁ s₂ := hs₂ ▸ hi₁.update hinv₂ hroot₂ hshape₂
  have hv₂' : (uvmclear (sz₁ - (USERSTACK + 1) * PGSIZE)).run v₁ = .ok ((), v₂) := by
    rw [hs₁] at hv₂
    simpa only [Function.update_self] using hv₂
  -- the state after `uvmclear` as one update of `s'`
  have hs₂' : s₂ = { s' with tables := Function.update s'.tables r v₂.pt, pm := v₂.pm } := by
    rw [hs₂, hs₁]
    simp only [Function.update_idem]
  refine .inr ⟨v₂, hv₂', hs₂' ▸ hi₂, ?_⟩
  have htab₂ : s₂.tables r = v₂.pt := by
    rw [hs₂]
    exact Function.update_self ..
  -- the upper stack page is mapped user-writable
  have hw : Writable (s₂.tables r) (sz₁ - PGSIZE) (sz₁ - (sz₁ - PGSIZE)) := by
    intro a h1 h2 h3
    rw [PGROUNDDOWN_of_mod (by rw [hPG] at hal₁ ⊢; omega)] at h1
    have hne : a ≠ PGROUNDDOWN (sz₁ - 2 * PGSIZE) := by
      rw [← hguard]
      omega
    have hup : PGROUNDUP (PGROUNDUP sz) ≤ a := by
      rw [PGROUNDUP_of_mod (PGROUNDUP_mod sz)]
      omega
    obtain ⟨pa, hl⟩ := hgrow₁ a hup (by omega) h3
    have hl₂ : (s₂.tables r).leaf a = some ⟨pa, PTE_R ||| PTE_U ||| PTE_W⟩ := by
      rw [htab₂, hleaf₂, Function.update_of_ne hne]
      dsimp only
      rw [htab₁, hl]
    refine ⟨_, hl₂, rfl, rfl, ?_⟩
    exact ne_zero_of_held hend hi₂.inv.pageInv (hi₂.inv.tracked.leaf a _ hl₂ (by omega))
  have hmax : sz₁ ≤ MAXVA := by
    rw [MAXVA_eq]
    omega
  -- `sp` and `stackbase` as numbers
  have hsp : (UInt64.ofNat sz₁).toNat = sz₁ := UInt64.toNat_ofNat_of_lt' (by rw [UInt64.size]; omega)
  have hbase : (UInt64.ofNat sz₁ - UInt64.ofNat (USERSTACK * PGSIZE)).toNat = sz₁ - PGSIZE := by
    have hone : (UInt64.ofNat (USERSTACK * PGSIZE)).toNat = PGSIZE := rfl
    rw [UInt64.toNat_sub_of_le _ _ (UInt64.le_iff_toNat_le.mpr (by rw [hsp, hone]; omega)), hsp, hone]
  generalize UInt64.ofNat sz₁ - UInt64.ofNat (USERSTACK * PGSIZE) = stackbase at h hbase
  generalize UInt64.ofNat sz₁ = sp at h hsp
  rw [← hbase] at hw
  -- the argument strings
  obtain ⟨res, s₃, hrun₃, h⟩ := run_bind_eq_ok h
  have hwf₂ : WF (s₂.tables r) := hi₂.inv.wf
  obtain ⟨rfl, hres⟩ := pushArgs_state hwf₂ (by rw [hbase]; omega) hmax hw argv 0 sp hargv
    (by omega) (by omega) (Nat.zero_le _) hrun₃
  rcases res with _ | ⟨argc, sp'⟩
  · exact .inl (hs₂' ▸ h)
  obtain ⟨hlo', hhi', hargc'⟩ := hres argc sp' rfl
  dsimp only at h
  -- the `argc + 1` pointers of `ustack[]` below the strings
  have hfit : (argc + 1) * 8 ≤ sp'.toNat := by
    have hMAXARG : MAXARG = 32 := rfl
    omega
  have hspf := toNat_sub_align hfit
  generalize sp' - UInt64.ofNat ((argc + 1) * 8) - (sp' - UInt64.ofNat ((argc + 1) * 8)) % 16 = spf
    at h hspf
  by_cases hb : spf < stackbase
  · rw [if_pos hb] at h
    exact .inl (hs₂' ▸ h)
  rw [if_neg hb] at h
  have hlof : stackbase.toNat ≤ spf.toNat := Nat.le_of_not_lt (mt UInt64.lt_iff_toNat_lt.mpr hb)
  have hhif : spf.toNat + (argc + 1) * 8 ≤ sz₁ := by
    rw [hspf]
    have := Nat.mod_le (sp'.toNat - (argc + 1) * 8) 16
    omega
  rw [StateT.run_bind, copyout_of_window hwf₂ hmax hw hlof hhif, ok_bind,
    if_neg (Int.lt_irrefl 0)] at h
  -- the commit
  have hold : (s₃.procs p).pagetable = (s.procs p).pagetable := by rw [hi₂.procs]
  rw [StateT.run_bind, StateT.run_get, pure_bind, hold] at h
  obtain ⟨⟨⟩, s₄, hrun₄, h⟩ := run_bind_eq_ok h
  rw [setProc_run] at hrun₄
  cases hrun₄
  obtain ⟨⟨⟩, s₅, hrun₅, h⟩ := run_bind_eq_ok h
  obtain ⟨v, hv, rfl⟩ := onTable_run_eq_ok hrun₅
  cases h
  subst hs₂'
  exact .inr ⟨v, hv, rfl⟩

/-- **The stack of the new image**: two pages past the program, the lower
    one a guard without `PTE_U`, the arguments pushed into the upper one,
    then the commit; `execStack` keeps the invariant whenever it
    returns. -/
theorem execStack_spec (hend : 0 < kend) (hs : SysInv kend trampoline s) (hp : (s.procs p).used)
    {r sz : Nat} {s' : MemSys} (hi : Image kend trampoline s p r sz s') (huser : UserLeaves (s'.tables r))
    {argv : List Nat} (hargv : ∀ l ∈ argv, l < PGSIZE) {x : Int} {s'' : MemSys}
    (h : (execStack kend p r sz argv).run s' = .ok (x, s'')) : SysInv kend trampoline s'' := by
  obtain ⟨sz₁, v₁, -, ⟨-, hi₁, hbad⟩ | ⟨v₂, -, hi₂, hbad | ⟨v, hv, rfl⟩⟩⟩ :=
    execStack_cases hend hi huser hargv h
  · exact hi₁.bad hs hbad
  · exact hi₂.bad hs hbad
  · -- the commit frees the old table, found where it was
    obtain ⟨v', hv', hsys⟩ := hi₂.commit hs hp
    cases hv.symm.trans hv'
    exact hsys

/-- **KEXEC** keeps the invariant whenever it returns, for the argument
    strings `sys_exec` passes (each shorter than a page): a bad ELF header
    changes nothing, a failure after `proc_pagetable` frees the new table,
    and a success swaps it in and frees the old one. -/
theorem kexec_spec (hend : 0 < kend) (hs : SysInv kend trampoline s) (hp : (s.procs p).used)
    (ip : Option ExecFile) {argv : List Nat} (hargv : ∀ l ∈ argv, l < PGSIZE) {x : Int}
    {s' : MemSys} (h : (kexec kend trampoline p ip argv).run s = .ok (x, s')) :
    SysInv kend trampoline s' := by
  rw [kexec.eq_def] at h
  rcases ip with _ | ip
  · cases h
    exact hs
  dsimp only at h
  split at h
  · cases h
    exact hs
  obtain ⟨r, s₁, hrun₁, hzero, hnew⟩ := Image.create hend hs p
  rw [StateT.run_bind, hrun₁, ok_bind] at h
  by_cases hr : r = 0
  · rw [if_pos hr] at h
    cases h
    exact (hzero hr).1
  rw [if_neg hr] at h
  obtain ⟨hi, huser⟩ := hnew hr
  -- the program's segments, loaded into the new table
  obtain ⟨⟨sz, ok⟩, s₂, hrun₂, h⟩ := run_bind_eq_ok h
  obtain ⟨v, hv, hs₂⟩ := onTable_run_eq_ok hrun₂
  obtain ⟨hinv, hroot, hshape, huser'⟩ := loadSegments_spec hend ip _ _ 0 hi.inv hi.shape huser hv
  have hi₂ : Image kend trampoline s p r sz s₂ := hs₂ ▸ hi.update hinv hroot hshape
  dsimp only at h
  split at h
  · exact hi₂.bad hs h
  · have huser₂ : UserLeaves (s₂.tables r) := by
      rw [hs₂]
      simp only [Function.update_self]
      exact huser'
    exact execStack_spec hend hs hp hi₂ huser₂ hargv h

end Exec

end Xv6.Mem
