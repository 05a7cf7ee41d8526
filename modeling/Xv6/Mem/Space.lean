import Xv6.Mem.PageTable
import Xv6.Lib.Keeps

/-! # What a page table keeps

    Three invariants of one page table and the physical pages, which every
    function of `vm.c` keeps:

    * `WF`: a valid leaf is page-aligned and sits under valid tables;
    * `Tracked`: each page the table uses (its root, its tables, the user
      pages of its leaves below `TRAPFRAME`) is held under the table's root,
      with a holder that names the use, so by `held_unique` two uses are two
      pages;
    * `TableInv`: both, with the ownership invariant `PageInv`, and a set `O`
      of entries of other holders that the table's functions leave alone.

    Each function then gets one lemma that runs it from a state of
    `TableInv` and says what it does to the leaves: `walk_false_run`,
    `walk_true_spec`, `mappages_page_spec`, `unmapPage_spec`.  Later proofs
    cite these and never unfold the functions. -/

namespace Xv6.Mem

open StateExcept

/-! ## Addresses -/

theorem key0_div (a : Nat) : key0 a / 512 = key1 a := by
  rw [key0, key1, Nat.div_div_eq_div_mul, show (2 : Nat) ^ 21 * 512 = 2 ^ 30 by decide]

theorem PGROUNDDOWN_of_mod {a : Nat} (h : a % PGSIZE = 0) : PGROUNDDOWN a = a := by
  unfold PGROUNDDOWN
  unfold PGSIZE at *
  omega

theorem PGROUNDDOWN_mod (a : Nat) : PGROUNDDOWN a % PGSIZE = 0 :=
  Nat.mul_mod_left _ _

theorem key0_PGROUNDDOWN (a : Nat) : key0 (PGROUNDDOWN a) = key0 a := by
  simp only [key0, PGROUNDDOWN, PGSIZE]
  omega

theorem key1_PGROUNDDOWN (a : Nat) : key1 (PGROUNDDOWN a) = key1 a := by
  simp only [key1, PGROUNDDOWN, PGSIZE]
  omega

/-! ## The invariants -/

/-- A valid leaf is aligned and sits under a valid level-0 table, which sits
    under a valid level-1 table. -/
structure WF (pt : PageTable) : Prop where
  leaf_aligned : ∀ a pte, pt.leaf a = some pte → a % PGSIZE = 0
  leaf_l0 : ∀ a pte, pt.leaf a = some pte → pt.l0 (key0 a) ≠ 0
  l0_l1 : ∀ j, pt.l0 j ≠ 0 → pt.l1 (j / 512) ≠ 0

/-- The pages a table uses are held under its root, each by a holder that
    names its use. -/
structure Tracked (pt : PageTable) (held : List (Nat × Holder)) : Prop where
  root : (pt.root, .table pt.root 2 0) ∈ held
  l1 : ∀ i, pt.l1 i ≠ 0 → (pt.l1 i, .table pt.root 1 i) ∈ held
  l0 : ∀ j, pt.l0 j ≠ 0 → (pt.l0 j, .table pt.root 0 j) ∈ held
  leaf : ∀ a pte, pt.leaf a = some pte → a < TRAPFRAME → (pte.pa, .user pt.root a) ∈ held

/-- A holder that belongs to the table with root `r`. -/
def Holder.under (r : Nat) : Holder → Prop
  | .user r' _ => r' = r
  | .table r' _ _ => r' = r
  | .trapframe _ => False

/-- **The table invariant**, for a table whose functions must leave the
    entries `O` of other holders in place. -/
structure TableInv (kend : Nat) (O : Nat × Holder → Prop) (s : Vm) : Prop where
  pageInv : PageInv kend s.pm
  wf : WF s.pt
  tracked : Tracked s.pt s.pm.held
  others : ∀ e, O e → e ∈ s.pm.held
  apart : ∀ e, O e → ¬ e.2.under s.pt.root

theorem Tracked.mono {pt : PageTable} {held held' : List (Nat × Holder)} (ht : Tracked pt held)
    (h : ∀ e ∈ held, e ∈ held') : Tracked pt held' where
  root := h _ ht.root
  l1 i hi := h _ (ht.l1 i hi)
  l0 j hj := h _ (ht.l0 j hj)
  leaf a pte hl ha := h _ (ht.leaf a pte hl ha)

/-- Under `WF`, the PTE `walk` finds for an aligned address is its leaf. -/
theorem WF.lookup_eq {pt : PageTable} (hwf : WF pt) {a : Nat} (hal : a % PGSIZE = 0) :
    pt.lookup a = pt.leaf a := by
  unfold PageTable.lookup
  rw [PGROUNDDOWN_of_mod hal]
  split
  · rfl
  · next hnodes =>
      cases hl : pt.leaf a with
      | none => rfl
      | some pte =>
          have h0 := hwf.leaf_l0 a pte hl
          have h1 := hwf.l0_l1 _ h0
          rw [key0_div] at h1
          exact absurd ⟨h1, h0⟩ hnodes

section Steps

variable {kend : Nat} {O : Nat × Holder → Prop}

/-! ## One change of the state at a time -/

/-- A `kalloc` keeps the table invariant: it only adds a holder. -/
theorem TableInv.allocFor (hend : 0 < kend) {s : Vm} (hinv : TableInv kend O s) (h : Nat → Holder) :
    TableInv kend O { s with pm := (allocFor h s.pm).2 } where
  pageInv := allocFor_pageInv hend h hinv.pageInv
  wf := hinv.wf
  tracked := hinv.tracked.mono fun _ he => mem_allocFor_held h he
  others e he := mem_allocFor_held h (hinv.others e he)
  apart := hinv.apart

/-- Installing a held level-1 table where there was none. -/
theorem TableInv.setL1 {s : Vm} (hinv : TableInv kend O s) {i pa : Nat} (hi : s.pt.l1 i = 0)
    (hheld : (pa, .table s.pt.root 1 i) ∈ s.pm.held) :
    TableInv kend O { s with pt := s.pt.setL1 i pa } := by
  have hwf := hinv.wf
  -- no valid level-0 table was under the missing entry
  have hunder : ∀ j, s.pt.l0 j ≠ 0 → j / 512 ≠ i := fun j hj hji =>
    hwf.l0_l1 j hj (hji ▸ hi)
  refine ⟨hinv.pageInv, ⟨hwf.leaf_aligned, ?_, ?_⟩, ⟨hinv.tracked.root, ?_, ?_, hinv.tracked.leaf⟩,
    hinv.others, hinv.apart⟩
  · intro a pte hl
    have h0 := hwf.leaf_l0 a pte hl
    simp only [PageTable.setL1, if_neg (hunder _ h0)]
    exact h0
  · intro j hj
    simp only [PageTable.setL1] at hj ⊢
    split at hj
    · exact absurd rfl hj
    · next hji =>
        rw [Function.update_of_ne hji]
        exact hwf.l0_l1 j hj
  · intro i' hi'
    simp only [PageTable.setL1] at hi' ⊢
    by_cases hii : i' = i
    · subst hii
      simpa using hheld
    · rw [Function.update_of_ne hii] at hi' ⊢
      exact hinv.tracked.l1 i' hi'
  · intro j hj
    simp only [PageTable.setL1] at hj ⊢
    split at hj
    · exact absurd rfl hj
    · next hji =>
        rw [if_neg hji]
        exact hinv.tracked.l0 j hj

/-- Installing a held level-0 table where there was none, under a valid
    level-1 table. -/
theorem TableInv.setL0 {s : Vm} (hinv : TableInv kend O s) {j pa : Nat} (hj : s.pt.l0 j = 0)
    (h1 : s.pt.l1 (j / 512) ≠ 0) (hheld : (pa, .table s.pt.root 0 j) ∈ s.pm.held) :
    TableInv kend O { s with pt := s.pt.setL0 j pa } := by
  have hwf := hinv.wf
  refine ⟨hinv.pageInv, ⟨?_, ?_, ?_⟩, ⟨hinv.tracked.root, hinv.tracked.l1, ?_, ?_⟩,
    hinv.others, hinv.apart⟩
  · intro a pte hl
    simp only [PageTable.setL0] at hl
    split at hl
    · cases hl
    · exact hwf.leaf_aligned a pte hl
  · intro a pte hl
    simp only [PageTable.setL0] at hl ⊢
    split at hl
    · cases hl
    · next hne =>
        rw [Function.update_of_ne hne]
        exact hwf.leaf_l0 a pte hl
  · intro j' hj'
    simp only [PageTable.setL0] at hj' ⊢
    by_cases hjj : j' = j
    · subst hjj
      exact h1
    · rw [Function.update_of_ne hjj] at hj'
      exact hwf.l0_l1 j' hj'
  · intro j' hj'
    simp only [PageTable.setL0] at hj' ⊢
    by_cases hjj : j' = j
    · subst hjj
      simpa using hheld
    · rw [Function.update_of_ne hjj] at hj' ⊢
      exact hinv.tracked.l0 j' hj'
  · intro a pte hl ha
    simp only [PageTable.setL0] at hl ⊢
    split at hl
    · cases hl
    · exact hinv.tracked.leaf a pte hl ha

/-- Installing a leaf at an aligned address under a valid level-0 table; a
    user page must be held for it. -/
theorem TableInv.setLeaf {s : Vm} (hinv : TableInv kend O s) {a : Nat} {pte : Pte}
    (hal : a % PGSIZE = 0) (h0 : s.pt.l0 (key0 a) ≠ 0)
    (hheld : a < TRAPFRAME → (pte.pa, .user s.pt.root a) ∈ s.pm.held) :
    TableInv kend O { s with pt := s.pt.setLeaf a (some pte) } := by
  have hwf := hinv.wf
  -- a leaf of the new table is the new one or an old one
  have hcases : ∀ b q, Function.update s.pt.leaf a (some pte) b = some q →
      (b = a ∧ q = pte) ∨ s.pt.leaf b = some q := by
    intro b q hl
    by_cases hba : b = a
    · subst hba
      simp only [Function.update_self, Option.some.injEq] at hl
      exact .inl ⟨rfl, hl.symm⟩
    · rw [Function.update_of_ne hba] at hl
      exact .inr hl
  refine ⟨hinv.pageInv, ⟨?_, ?_, hwf.l0_l1⟩, ⟨hinv.tracked.root, hinv.tracked.l1, hinv.tracked.l0, ?_⟩,
    hinv.others, hinv.apart⟩
  · intro b q hl
    rcases hcases b q hl with ⟨rfl, -⟩ | hl
    · exact hal
    · exact hwf.leaf_aligned b q hl
  · intro b q hl
    rcases hcases b q hl with ⟨rfl, -⟩ | hl
    · exact h0
    · exact hwf.leaf_l0 b q hl
  · intro b q hl hb
    rcases hcases b q hl with ⟨rfl, rfl⟩ | hl
    · exact hheld hb
    · exact hinv.tracked.leaf b q hl hb

/-- Clearing a leaf keeps the invariant. -/
theorem TableInv.clearLeaf {s : Vm} (hinv : TableInv kend O s) (a : Nat) :
    TableInv kend O { s with pt := s.pt.setLeaf a none } := by
  have hwf := hinv.wf
  have hne : ∀ b q, Function.update s.pt.leaf a none b = some q → b ≠ a ∧ s.pt.leaf b = some q := by
    intro b q hl
    by_cases hba : b = a
    · subst hba
      simp at hl
    · rw [Function.update_of_ne hba] at hl
      exact ⟨hba, hl⟩
  refine ⟨hinv.pageInv, ⟨?_, ?_, hwf.l0_l1⟩, ⟨hinv.tracked.root, hinv.tracked.l1, hinv.tracked.l0, ?_⟩,
    hinv.others, hinv.apart⟩
  · exact fun b q hl => hwf.leaf_aligned b q (hne b q hl).2
  · exact fun b q hl => hwf.leaf_l0 b q (hne b q hl).2
  · exact fun b q hl => hinv.tracked.leaf b q (hne b q hl).2

/-- Freeing the user page of a leaf and clearing the leaf keeps the
    invariant: the entry erased is the leaf's own. -/
theorem TableInv.freeLeaf {s : Vm} (hinv : TableInv kend O s) {a : Nat} {pte : Pte}
    (hl : s.pt.leaf a = some pte) (ha : a < TRAPFRAME) :
    TableInv kend O { s with
      pt := s.pt.setLeaf a none,
      pm := ⟨⟨pte.pa :: s.pm.kmem.freelist⟩, s.pm.held.erase (pte.pa, .user s.pt.root a)⟩ } := by
  have hheld := hinv.tracked.leaf a pte hl ha
  have hcl := hinv.clearLeaf a
  have hok := freeFrom_of_held hinv.pageInv hheld
  -- every entry but the leaf's own stays
  have hkeep : ∀ e ∈ s.pm.held, e ≠ (pte.pa, .user s.pt.root a) →
      e ∈ s.pm.held.erase (pte.pa, .user s.pt.root a) :=
    fun e he hne => mem_freeFrom_held hok he hne
  refine ⟨freeFrom_pageInv hinv.pageInv hheld hok, hcl.wf, ⟨?_, ?_, ?_, ?_⟩, ?_, hinv.apart⟩
  · exact hkeep _ hinv.tracked.root (by simp)
  · exact fun i hi => hkeep _ (hinv.tracked.l1 i hi) (by simp)
  · exact fun j hj => hkeep _ (hinv.tracked.l0 j hj) (by simp)
  · intro b q hb hb'
    have hq := hcl.tracked.leaf b q hb hb'
    refine hkeep _ hq fun heq => ?_
    simp only [Prod.mk.injEq, Holder.user.injEq] at heq
    obtain ⟨-, -, rfl⟩ := heq
    simp at hb
  · intro e he
    refine hkeep e (hinv.others e he) fun heq => ?_
    have := hinv.apart e he
    rw [heq] at this
    exact this rfl

/-! ## Running the functions -/

theorem kallocFor_run (h : Nat → Holder) (s : Vm) :
    (kallocFor h).run s = pure ((allocFor h s.pm).1, { s with pm := (allocFor h s.pm).2 }) := rfl

theorem kfreeFrom_run {s : Vm} (hinv : PageInv kend s.pm) {h : Holder} {pa : Nat}
    (he : (pa, h) ∈ s.pm.held) :
    (kfreeFrom kend h pa).run s =
      pure ((), { s with pm := ⟨⟨pa :: s.pm.kmem.freelist⟩, s.pm.held.erase (pa, h)⟩ }) := by
  simp only [kfreeFrom, StateT.run_bind, StateT.run_get, pure_bind, freeFrom_of_held hinv he]
  rfl

/-- A level-0 table installed where there was none covers no leaf. -/
theorem WF.setL0_leaf {pt : PageTable} (hwf : WF pt) {j pa : Nat} (hj : pt.l0 j = 0) :
    (pt.setL0 j pa).leaf = pt.leaf := by
  funext a
  simp only [PageTable.setL0]
  split
  · next hja =>
      cases hl : pt.leaf a with
      | none => rfl
      | some pte => exact absurd (hja ▸ hj) (hwf.leaf_l0 a pte hl)
  · rfl

/-- The level-2 round of `walk` keeps the invariant, the root, the leaves
    and every holder, and when it answers yes the level-1 table is valid. -/
theorem walkL1_spec (hend : 0 < kend) {s : Vm} (hinv : TableInv kend O s) (va : Nat) (alloc : Bool) :
    ∃ b s', (walkL1 va alloc).run s = .ok (b, s') ∧ TableInv kend O s' ∧ s'.pt.root = s.pt.root ∧
      s'.pt.leaf = s.pt.leaf ∧ (∀ e ∈ s.pm.held, e ∈ s'.pm.held) ∧
      (b = true → s'.pt.l1 (key1 va) ≠ 0) := by
  simp only [walkL1, StateT.run_bind, StateT.run_get, pure_bind]
  by_cases h1 : s.pt.l1 (key1 va) ≠ 0
  · simp only [if_pos h1]
    exact ⟨true, s, rfl, hinv, rfl, rfl, fun _ h => h, fun _ => h1⟩
  · simp only [if_neg h1]
    cases alloc with
    | false => exact ⟨false, s, rfl, hinv, rfl, rfl, fun _ h => h, nofun⟩
    | true =>
        simp only [if_true, StateT.run_bind, kallocFor_run, pure_bind]
        have hinv₁ := hinv.allocFor hend fun _ => .table s.pt.root 1 (key1 va)
        split
        · exact ⟨false, _, rfl, hinv₁, rfl, rfl,
            fun _ h => mem_allocFor_held (fun _ => .table s.pt.root 1 (key1 va)) h, nofun⟩
        · next hpa =>
            refine ⟨true, _, rfl, hinv₁.setL1 (not_not.mp h1) (allocFor_held _ hpa), rfl, rfl,
              fun _ h => mem_allocFor_held (fun _ => .table s.pt.root 1 (key1 va)) h, fun _ => ?_⟩
            simpa [PageTable.setL1] using hpa

/-- The level-1 round of `walk`, under a valid level-1 table. -/
theorem walkL0_spec (hend : 0 < kend) {s : Vm} (hinv : TableInv kend O s) {va : Nat}
    (h1 : s.pt.l1 (key1 va) ≠ 0) (alloc : Bool) :
    ∃ b s', (walkL0 va alloc).run s = .ok (b, s') ∧ TableInv kend O s' ∧ s'.pt.root = s.pt.root ∧
      s'.pt.leaf = s.pt.leaf ∧ (∀ e ∈ s.pm.held, e ∈ s'.pm.held) ∧
      (b = true → s'.pt.l0 (key0 va) ≠ 0) := by
  simp only [walkL0, StateT.run_bind, StateT.run_get, pure_bind]
  by_cases h0 : s.pt.l0 (key0 va) ≠ 0
  · simp only [if_pos h0]
    exact ⟨true, s, rfl, hinv, rfl, rfl, fun _ h => h, fun _ => h0⟩
  · simp only [if_neg h0]
    cases alloc with
    | false => exact ⟨false, s, rfl, hinv, rfl, rfl, fun _ h => h, nofun⟩
    | true =>
        simp only [if_true, StateT.run_bind, kallocFor_run, pure_bind]
        have hinv₁ := hinv.allocFor hend fun _ => .table s.pt.root 0 (key0 va)
        split
        · exact ⟨false, _, rfl, hinv₁, rfl, rfl,
            fun _ h => mem_allocFor_held (fun _ => .table s.pt.root 0 (key0 va)) h, nofun⟩
        · next hpa =>
            refine ⟨true, _, rfl, hinv₁.setL0 (not_not.mp h0) (by rwa [key0_div])
              (allocFor_held _ hpa), rfl, hinv.wf.setL0_leaf (not_not.mp h0),
              fun _ h => mem_allocFor_held (fun _ => .table s.pt.root 0 (key0 va)) h, fun _ => ?_⟩
            simpa [PageTable.setL0] using hpa

theorem walkL1_false_run (va : Nat) (s : Vm) :
    (walkL1 va false).run s = .ok (decide (s.pt.l1 (key1 va) ≠ 0), s) := by
  by_cases h1 : s.pt.l1 (key1 va) = 0 <;> simp [walkL1, h1] <;> rfl

theorem walkL0_false_run (va : Nat) (s : Vm) :
    (walkL0 va false).run s = .ok (decide (s.pt.l0 (key0 va) ≠ 0), s) := by
  by_cases h0 : s.pt.l0 (key0 va) = 0 <;> simp [walkL0, h0] <;> rfl

/-- `walk` without `alloc` changes nothing: it finds the key when both
    tables are valid. -/
theorem walk_false_run {va : Nat} (ha : va < MAXVA) (s : Vm) :
    (walk va false).run s =
      .ok (if s.pt.l1 (key1 va) ≠ 0 ∧ s.pt.l0 (key0 va) ≠ 0 then some (PGROUNDDOWN va) else none, s) := by
  rw [walk, if_neg (Nat.not_le.mpr ha), run_bind_of_eq_ok (walkL1_false_run va s)]
  by_cases h1 : s.pt.l1 (key1 va) = 0
  · simp [h1]
    rfl
  · simp only [h1, ne_eq, not_false_eq_true, decide_true, if_true]
    rw [run_bind_of_eq_ok (walkL0_false_run va s)]
    by_cases h0 : s.pt.l0 (key0 va) = 0 <;> simp [h0] <;> rfl

/-- `walk` with `alloc`: what its rounds keep, and a valid level-0 table
    under the key it answers. -/
theorem walk_true_spec (hend : 0 < kend) {s : Vm} (hinv : TableInv kend O s) {va : Nat}
    (ha : va < MAXVA) :
    ∃ res s', (walk va true).run s = .ok (res, s') ∧ TableInv kend O s' ∧ s'.pt.root = s.pt.root ∧
      s'.pt.leaf = s.pt.leaf ∧ (∀ e ∈ s.pm.held, e ∈ s'.pm.held) ∧
      (∀ k, res = some k → k = PGROUNDDOWN va ∧ s'.pt.l0 (key0 va) ≠ 0) := by
  obtain ⟨b₁, s₁, hrun₁, hinv₁, hroot₁, hleaf₁, hheld₁, hvalid₁⟩ := walkL1_spec hend hinv va true
  rw [walk, if_neg (Nat.not_le.mpr ha), run_bind_of_eq_ok hrun₁]
  cases b₁ with
  | false => exact ⟨none, s₁, rfl, hinv₁, hroot₁, hleaf₁, hheld₁, nofun⟩
  | true =>
      obtain ⟨b₀, s₂, hrun₀, hinv₂, hroot₂, hleaf₂, hheld₂, hvalid₀⟩ :=
        walkL0_spec hend hinv₁ (hvalid₁ rfl) true
      simp only [if_true]
      rw [run_bind_of_eq_ok hrun₀]
      cases b₀ with
      | false =>
          exact ⟨none, s₂, rfl, hinv₂, hroot₂.trans hroot₁, hleaf₂.trans hleaf₁,
            fun e he => hheld₂ e (hheld₁ e he), nofun⟩
      | true =>
          refine ⟨some (PGROUNDDOWN va), s₂, rfl, hinv₂, hroot₂.trans hroot₁, hleaf₂.trans hleaf₁,
            fun e he => hheld₂ e (hheld₁ e he), ?_⟩
          rintro k ⟨⟩
          exact ⟨rfl, hvalid₀ rfl⟩

/-- `mappages` of one aligned page is one round of its loop. -/
theorem mappages_page_eq {a : Nat} (hal : a % PGSIZE = 0) (pa : Nat) (perm : Perm) :
    mappages a PGSIZE pa perm = mappagesLoop a perm 1 a pa := by
  have hsize : PGSIZE % PGSIZE = 0 ∧ PGSIZE ≠ 0 ∧ PGSIZE / PGSIZE = 1 := by decide
  simp only [mappages, hal, hsize, ne_eq, not_true_eq_false, if_false,
    Nat.add_sub_cancel]

/-- **MAP**: `mappages` of one page where there is none maps it, or finds
    no memory for a table and leaves the leaves as they were. -/
theorem mappages_page_spec (hend : 0 < kend) {s : Vm} (hinv : TableInv kend O s) {a pa : Nat}
    (perm : Perm) (ha : a < MAXVA) (hal : a % PGSIZE = 0) (hnone : s.pt.leaf a = none)
    (hheld : a < TRAPFRAME → (pa, .user s.pt.root a) ∈ s.pm.held) :
    ∃ res s', (mappages a PGSIZE pa perm).run s = .ok (res, s') ∧ TableInv kend O s' ∧
      s'.pt.root = s.pt.root ∧ (∀ e ∈ s.pm.held, e ∈ s'.pm.held) ∧
      ((res = 0 ∧ s'.pt.leaf = Function.update s.pt.leaf a (some ⟨pa, perm⟩)) ∨
        (res = -1 ∧ s'.pt.leaf = s.pt.leaf)) := by
  obtain ⟨res, s₁, hrun, hinv₁, hroot, hleaf, hheld₁, hkey⟩ := walk_true_spec hend hinv ha
  rw [mappages_page_eq hal, mappagesLoop, run_bind_of_eq_ok hrun]
  cases res with
  | none => exact ⟨-1, s₁, rfl, hinv₁, hroot, hheld₁, .inr ⟨rfl, hleaf⟩⟩
  | some k =>
      obtain ⟨rfl, h0⟩ := hkey k rfl
      rw [PGROUNDDOWN_of_mod hal]
      have hnone₁ : s₁.pt.leaf a = none := hleaf ▸ hnone
      have hinv₂ : TableInv kend O { s₁ with pt := s₁.pt.setLeaf a (some ⟨pa, perm⟩) } :=
        hinv₁.setLeaf hal h0 fun hlt => hroot ▸ hheld₁ _ (hheld hlt)
      refine ⟨0, _, ?_, hinv₂, hroot, hheld₁, .inl ⟨rfl, ?_⟩⟩
      · simp [hnone₁]
        rfl
      · simp [hleaf]

/-- Clearing a leaf that is not there changes nothing. -/
theorem update_leaf_none {pt : PageTable} {a : Nat} (h : pt.leaf a = none) :
    Function.update pt.leaf a none = pt.leaf := by
  rw [← h, Function.update_eq_self]

/-- **UNMAP**: one page of `uvmunmap` clears the leaf of `a`, and gives its
    page back when `doFree`, which it does below `TRAPFRAME` only. -/
theorem unmapPage_spec {s : Vm} (hinv : TableInv kend O s) {a : Nat} (doFree : Bool)
    (ha : a < MAXVA) (hal : a % PGSIZE = 0) (hfree : doFree = true → a < TRAPFRAME) :
    ∃ s', (unmapPage kend doFree a).run s = .ok ((), s') ∧ TableInv kend O s' ∧
      s'.pt.root = s.pt.root ∧ s'.pt.leaf = Function.update s.pt.leaf a none := by
  rw [unmapPage, run_bind_of_eq_ok (walk_false_run ha s), PGROUNDDOWN_of_mod hal]
  by_cases hnodes : s.pt.l1 (key1 a) ≠ 0 ∧ s.pt.l0 (key0 a) ≠ 0
  · -- both tables are valid: the leaf is looked at
    simp only [if_pos hnodes, StateT.run_bind, StateT.run_get, pure_bind]
    cases hl : s.pt.leaf a with
    | none => exact ⟨s, rfl, hinv, rfl, (update_leaf_none hl).symm⟩
    | some pte =>
        cases doFree with
        | false => exact ⟨_, rfl, hinv.clearLeaf a, rfl, rfl⟩
        | true =>
            have hlt := hfree rfl
            simp only [if_true, StateT.run_bind, StateT.run_get, pure_bind,
              kfreeFrom_run hinv.pageInv (hinv.tracked.leaf a pte hl hlt)]
            exact ⟨_, rfl, hinv.freeLeaf hl hlt, rfl, rfl⟩
  · -- a table is missing, so no leaf is there
    have hl : s.pt.leaf a = none := by
      rw [← hinv.wf.lookup_eq hal]
      simp only [PageTable.lookup, if_neg hnodes]
    simp only [if_neg hnodes]
    exact ⟨s, rfl, hinv, rfl, (update_leaf_none hl).symm⟩

/-- Giving back a user page that the table does not map keeps the
    invariant: what fails in `uvmalloc` and `uvmcopy` after a `kalloc`. -/
theorem TableInv.freeUnmapped {s : Vm} (hinv : TableInv kend O s) {a pa : Nat}
    (hheld : (pa, .user s.pt.root a) ∈ s.pm.held) (hnone : s.pt.leaf a = none) :
    TableInv kend O { s with
      pm := ⟨⟨pa :: s.pm.kmem.freelist⟩, s.pm.held.erase (pa, .user s.pt.root a)⟩ } := by
  have hok := freeFrom_of_held hinv.pageInv hheld
  have hkeep : ∀ e ∈ s.pm.held, e ≠ (pa, .user s.pt.root a) →
      e ∈ s.pm.held.erase (pa, .user s.pt.root a) :=
    fun e he hne => mem_freeFrom_held hok he hne
  refine ⟨freeFrom_pageInv hinv.pageInv hheld hok, hinv.wf, ⟨?_, ?_, ?_, ?_⟩, ?_, hinv.apart⟩
  · exact hkeep _ hinv.tracked.root (by simp)
  · exact fun i hi => hkeep _ (hinv.tracked.l1 i hi) (by simp)
  · exact fun j hj => hkeep _ (hinv.tracked.l0 j hj) (by simp)
  · intro b q hb hb'
    refine hkeep _ (hinv.tracked.leaf b q hb hb') fun heq => ?_
    simp only [Prod.mk.injEq, Holder.user.injEq] at heq
    obtain ⟨-, -, rfl⟩ := heq
    simp [hnone] at hb
  · intro e he
    refine hkeep e (hinv.others e he) fun heq => ?_
    have := hinv.apart e he
    rw [heq] at this
    exact this rfl

theorem walkL1_of_valid {va : Nat} (alloc : Bool) {s : Vm} (h1 : s.pt.l1 (key1 va) ≠ 0) :
    (walkL1 va alloc).run s = .ok (true, s) := by
  simp [walkL1, h1]
  rfl

theorem walkL0_of_valid {va : Nat} (alloc : Bool) {s : Vm} (h0 : s.pt.l0 (key0 va) ≠ 0) :
    (walkL0 va alloc).run s = .ok (true, s) := by
  simp [walkL0, h0]
  rfl

/-- Under valid tables `walk` allocates nothing and finds the key. -/
theorem walk_of_valid {va : Nat} (alloc : Bool) {s : Vm} (ha : va < MAXVA)
    (h1 : s.pt.l1 (key1 va) ≠ 0) (h0 : s.pt.l0 (key0 va) ≠ 0) :
    (walk va alloc).run s = .ok (some (PGROUNDDOWN va), s) := by
  rw [walk, if_neg (Nat.not_le.mpr ha), run_bind_of_eq_ok (walkL1_of_valid alloc h1)]
  simp only [if_true]
  rw [run_bind_of_eq_ok (walkL0_of_valid alloc h0)]
  rfl

/-- `mappages` over a valid leaf panics: the remap check. -/
theorem mappages_page_remap {s : Vm} (hwf : WF s.pt) {a pa : Nat} (perm : Perm) (ha : a < MAXVA)
    (hal : a % PGSIZE = 0) {pte : Pte} (hl : s.pt.leaf a = some pte) :
    (mappages a PGSIZE pa perm).run s = .error "mappages: remap" := by
  have h0 := hwf.leaf_l0 a pte hl
  have h1 : s.pt.l1 (key1 a) ≠ 0 := key0_div a ▸ hwf.l0_l1 _ h0
  rw [mappages_page_eq hal, mappagesLoop, run_bind_of_eq_ok (walk_of_valid true ha h1 h0)]
  simp [PGROUNDDOWN_of_mod hal, hl]
  rfl

end Steps

end Xv6.Mem
