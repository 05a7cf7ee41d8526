import Xv6.Mem.Space

/-! # The loops over user memory

    `uvmunmap`, `uvmdealloc`, `uvmalloc` and `uvmcopy` run one page at a
    time.  Each lemma here runs a whole loop from a state of `TableInv`, by
    induction on the loop's rounds, and says what the leaves are at the end:

    * `uvmunmap_spec`, `uvmdealloc_spec`: the leaves of a range are cleared
      (and their pages given back), nothing else moves, and the call always
      returns;
    * `uvmalloc_spec`: when it returns `newsz` every page of
      `[PGROUNDUP(oldsz), newsz)` is mapped with the permissions asked for
      and `newsz` is at most `TRAPFRAME`; when it fails the leaves are as
      they were;
    * `uvmcopy_spec`: the child maps a fresh page, with the parent's
      permissions, wherever the parent maps one below `sz`; when it fails
      the child maps no user page. -/

namespace Xv6.Mem

open StateExcept

theorem WF.leaf_of_mod {pt : PageTable} (hwf : WF pt) {x : Nat} (hx : x % PGSIZE ≠ 0) :
    pt.leaf x = none := by
  cases hl : pt.leaf x with
  | none => rfl
  | some q => exact absurd (hwf.leaf_aligned x q hl) hx

section Loops

variable {kend : Nat} {O : Nat × Holder → Prop}

/-- **UVMUNMAP**: the loop clears the leaves of `n` pages from `a`. -/
theorem uvmunmapLoop_spec (doFree : Bool) :
    ∀ (n a : Nat) {s : Vm}, TableInv kend O s → a % PGSIZE = 0 → a + n * PGSIZE ≤ MAXVA →
      (doFree = true → a + n * PGSIZE ≤ TRAPFRAME) →
      ∃ s', (uvmunmapLoop kend doFree n a).run s = .ok ((), s') ∧ TableInv kend O s' ∧
        s'.pt.root = s.pt.root ∧
        s'.pt.leaf = fun x => if a ≤ x ∧ x < a + n * PGSIZE then none else s.pt.leaf x
  | 0, a, s, hinv, _, _, _ => ⟨s, rfl, hinv, rfl, by funext x; rw [if_neg (by omega)]⟩
  | n + 1, a, s, hinv, hal, hmax, hfree => by
      -- the page at `a`, then the other `n`
      have hstep : a + PGSIZE + n * PGSIZE = a + (n + 1) * PGSIZE := by
        rw [Nat.succ_mul]
        omega
      have hpg : 0 < PGSIZE := by decide
      obtain ⟨s₁, hrun₁, hinv₁, hroot₁, hleaf₁⟩ :=
        unmapPage_spec hinv doFree (by omega) hal fun h => by have := hfree h; omega
      obtain ⟨s₂, hrun₂, hinv₂, hroot₂, hleaf₂⟩ :=
        uvmunmapLoop_spec doFree n (a + PGSIZE) hinv₁ (by rw [Nat.add_mod_right]; exact hal)
          (by omega) fun h => by have := hfree h; omega
      refine ⟨s₂, ?_, hinv₂, hroot₂.trans hroot₁, ?_⟩
      · rw [uvmunmapLoop, run_bind_of_eq_ok hrun₁]
        exact hrun₂
      · funext x
        rw [hleaf₂, hleaf₁, ← hstep]
        dsimp only
        by_cases hx : x = a
        · subst hx
          simp only [Function.update_self]
          split <;> split <;> first | rfl | omega
        · rw [Function.update_of_ne hx]
          by_cases hin : a < x ∧ x < a + PGSIZE
          · -- strictly inside the first page: not aligned, so no leaf
            have hmod : x % PGSIZE ≠ 0 := by
              unfold PGSIZE at *
              omega
            rw [hinv.wf.leaf_of_mod hmod]
            split <;> split <;> rfl
          · split <;> split <;> first | rfl | omega

theorem uvmunmap_spec {s : Vm} (hinv : TableInv kend O s) {va : Nat} (n : Nat) (doFree : Bool)
    (hal : va % PGSIZE = 0) (hmax : va + n * PGSIZE ≤ MAXVA)
    (hfree : doFree = true → va + n * PGSIZE ≤ TRAPFRAME) :
    ∃ s', (uvmunmap kend va n doFree).run s = .ok ((), s') ∧ TableInv kend O s' ∧
      s'.pt.root = s.pt.root ∧
      s'.pt.leaf = fun x => if va ≤ x ∧ x < va + n * PGSIZE then none else s.pt.leaf x := by
  rw [uvmunmap, if_neg (not_not.mpr hal)]
  exact uvmunmapLoop_spec doFree n va hinv hal hmax hfree

/-- **UVMDEALLOC**: shrinking clears the leaves of the whole pages between
    the two sizes, and always returns. -/
theorem uvmdealloc_spec {s : Vm} (hinv : TableInv kend O s) (oldsz newsz : Nat)
    (hold : PGROUNDUP oldsz ≤ TRAPFRAME) :
    ∃ r s', (uvmdealloc kend oldsz newsz).run s = .ok (r, s') ∧ TableInv kend O s' ∧
      s'.pt.root = s.pt.root ∧
      (oldsz ≤ newsz → r = oldsz ∧ s'.pt.leaf = s.pt.leaf) ∧
      (newsz < oldsz → r = newsz ∧ s'.pt.leaf =
        fun x => if PGROUNDUP newsz ≤ x ∧ x < PGROUNDUP oldsz then none else s.pt.leaf x) := by
  have htf : TRAPFRAME + PGSIZE ≤ MAXVA := by decide
  by_cases hge : newsz ≥ oldsz
  · refine ⟨oldsz, s, by simp [uvmdealloc, hge]; rfl, hinv, rfl, fun _ => ⟨rfl, rfl⟩, ?_⟩
    intro h
    omega
  · have hlt : newsz < oldsz := Nat.lt_of_not_le hge
    have hmono : PGROUNDUP newsz ≤ PGROUNDUP oldsz := by
      unfold PGROUNDUP
      exact Nat.mul_le_mul_right _ (Nat.div_le_div_right (by omega))
    by_cases hpages : PGROUNDUP newsz < PGROUNDUP oldsz
    · -- whole pages go: unmap them from `PGROUNDUP newsz`
      have hn : PGROUNDUP newsz + (PGROUNDUP oldsz - PGROUNDUP newsz) / PGSIZE * PGSIZE =
          PGROUNDUP oldsz := by
        have := PGROUNDUP_mod newsz
        have := PGROUNDUP_mod oldsz
        unfold PGSIZE at *
        omega
      obtain ⟨s', hrun, hinv', hroot, hleaf⟩ := uvmunmap_spec hinv
        ((PGROUNDUP oldsz - PGROUNDUP newsz) / PGSIZE) true (PGROUNDUP_mod newsz)
        (by omega) (fun _ => by omega)
      refine ⟨newsz, s', ?_, hinv', hroot, fun h => absurd h (by omega), fun _ => ⟨rfl, ?_⟩⟩
      · simp only [uvmdealloc, if_neg hge, if_pos hpages, StateT.run_bind, hrun]
        rfl
      · rw [hleaf, hn]
    · -- the same number of pages: nothing to unmap
      refine ⟨newsz, s, ?_, hinv, rfl, fun h => absurd h (by omega), fun _ => ⟨rfl, ?_⟩⟩
      · simp [uvmdealloc, hge, hpages]
        rfl
      · funext x
        split
        · omega
        · rfl

/-- The loop of `uvmalloc` from `a` mapped each page of `[a, newsz)` with
    `perm`, and nothing else. -/
def Grown (a newsz : Nat) (perm : Perm) (leaf leaf' : Nat → Option Pte) : Prop :=
  (∀ x, a ≤ x → x < newsz → x % PGSIZE = 0 → ∃ pa, leaf' x = some ⟨pa, perm⟩) ∧
    (∀ x, ¬ (a ≤ x ∧ x < newsz ∧ x % PGSIZE = 0) → leaf' x = leaf x)

/-- A failed `uvmalloc` left no leaf of `[oldsz, newsz)` below `TRAPFRAME`,
    and nothing else changed. -/
def RolledBack (oldsz newsz : Nat) (leaf leaf' : Nat → Option Pte) : Prop :=
  (∀ x, oldsz ≤ x → x < newsz → x < TRAPFRAME → leaf' x = none) ∧
    (∀ x, ¬ (oldsz ≤ x ∧ x < newsz ∧ x < TRAPFRAME) → leaf' x = leaf x)

/-- The rollback of `uvmalloc` when the round at `a` fails: `uvmdealloc(a,
    oldsz)` clears what the loop mapped from `oldsz`. -/
theorem rollback_spec {s : Vm} (hinv : TableInv kend O s) {oldsz a newsz : Nat}
    (hold : oldsz % PGSIZE = 0) (hal : a % PGSIZE = 0) (hoa : oldsz ≤ a) (hatf : a ≤ TRAPFRAME)
    (han : a < newsz) (hfree : ∀ x, a ≤ x → x < newsz → x < TRAPFRAME → s.pt.leaf x = none) :
    ∃ r s', (uvmdealloc kend a oldsz).run s = .ok (r, s') ∧ TableInv kend O s' ∧
      s'.pt.root = s.pt.root ∧ RolledBack oldsz newsz s.pt.leaf s'.pt.leaf := by
  obtain ⟨r, s', hrun, hinv', hroot, hge, hlt⟩ :=
    uvmdealloc_spec hinv a oldsz (by rw [PGROUNDUP_of_mod hal]; exact hatf)
  refine ⟨r, s', hrun, hinv', hroot, ?_⟩
  rcases Nat.eq_or_lt_of_le hoa with heq | hlt'
  · -- nothing was mapped yet
    subst heq
    rw [(hge (Nat.le_refl _)).2]
    exact ⟨fun x h1 h2 h3 => hfree x h1 h2 h3, fun _ _ => rfl⟩
  · rw [(hlt hlt').2, PGROUNDUP_of_mod hold, PGROUNDUP_of_mod hal]
    refine ⟨fun x h1 h2 h3 => ?_, fun x hx => ?_⟩
    · dsimp only
      split
      · rfl
      · exact hfree x (by omega) h2 h3
    · dsimp only
      rw [if_neg (by omega)]

/-- **UVMALLOC**: the loop from `a`, when it returns, either mapped every
    page up to `newsz`, which is then at most `TRAPFRAME`, or failed and
    rolled back.  Running into the trapframe is a remap panic. -/
theorem uvmallocLoop_spec (hend : 0 < kend) (oldsz newsz : Nat) (perm : Perm)
    (hold : oldsz % PGSIZE = 0) :
    ∀ (fuel a : Nat) {s : Vm} {r : Nat} {s' : Vm}, TableInv kend O s → a % PGSIZE = 0 →
      oldsz ≤ a → a ≤ TRAPFRAME → (s.pt.leaf TRAPFRAME).isSome →
      (∀ x, a ≤ x → x < newsz → x < TRAPFRAME → s.pt.leaf x = none) →
      newsz ≤ a + fuel * PGSIZE →
      (uvmallocLoop kend oldsz newsz perm fuel a).run s = .ok (r, s') →
      TableInv kend O s' ∧ s'.pt.root = s.pt.root ∧
        ((r = newsz ∧ newsz ≤ TRAPFRAME ∧ Grown a newsz perm s.pt.leaf s'.pt.leaf) ∨
          (r = 0 ∧ RolledBack oldsz newsz s.pt.leaf s'.pt.leaf))
  | 0, a, s, r, s', hinv, _, _, hatf, _, _, hfuel, h => by
      simp only [uvmallocLoop] at h
      cases h
      refine ⟨hinv, rfl, .inl ⟨rfl, by omega, fun x h1 h2 _ => absurd h2 (by omega), fun _ _ => rfl⟩⟩
  | fuel + 1, a, s, r, s', hinv, hal, hoa, hatf, htf, hfree, hfuel, h => by
      simp only [uvmallocLoop] at h
      split at h
      swap
      · -- every page is mapped
        next hge =>
          cases h
          exact ⟨hinv, rfl, .inl ⟨rfl, by omega, fun x h1 h2 _ => absurd h2 (by omega),
            fun _ _ => rfl⟩⟩
      next han =>
      simp only [StateT.run_bind, StateT.run_get, pure_bind, kallocFor_run] at h
      have hinv₁ := hinv.allocFor hend fun _ => .user s.pt.root a
      split at h
      · -- no memory: roll back
        obtain ⟨r₀, s₂, hrun₂, hinv₂, hroot₂, hback⟩ := rollback_spec hinv₁ hold hal hoa hatf han hfree
        rw [run_bind_of_eq_ok hrun₂] at h
        cases h
        exact ⟨hinv₂, hroot₂, .inr ⟨rfl, hback⟩⟩
      · next hmem =>
        -- the trapframe is mapped, so reaching it is a remap panic
        have hlt : a < TRAPFRAME := by
          rcases Nat.lt_or_ge a TRAPFRAME with h' | h'
          · exact h'
          · exfalso
            obtain rfl : a = TRAPFRAME := by omega
            obtain ⟨pte, hpte⟩ := Option.isSome_iff_exists.mp htf
            rw [StateT.run_bind, mappages_page_remap hinv₁.wf perm (by decide) hal hpte] at h
            cases h
        have hmax : a < MAXVA := Nat.lt_of_lt_of_le hlt (by decide)
        obtain ⟨res, s₂, hrun₂, hinv₂, hroot₂, hheld₂, hres⟩ := mappages_page_spec hend hinv₁ perm hmax
          hal (hfree a (Nat.le_refl a) han hlt) fun _ => allocFor_held _ hmem
        rw [run_bind_of_eq_ok hrun₂] at h
        dsimp only at hroot₂ hheld₂ hres
        have htfal : TRAPFRAME % PGSIZE = 0 := by decide
        have hpg : 0 < PGSIZE := by decide
        have hnext : a + PGSIZE ≤ TRAPFRAME := by
          unfold PGSIZE at *
          omega
        have hmemheld : ((allocFor (fun _ => .user s.pt.root a) s.pm).1, .user s.pt.root a) ∈
            s₂.pm.held := hheld₂ _ (allocFor_held _ hmem)
        rcases hres with ⟨rfl, hleaf₂⟩ | ⟨rfl, hleaf₂⟩
        · -- the page is mapped: the rest of the loop, one page up
          rw [if_neg (by decide)] at h
          have hne : ∀ x, x ≠ a → s₂.pt.leaf x = s.pt.leaf x := fun x hx => by
            rw [hleaf₂, Function.update_of_ne hx]
          obtain ⟨hinv', hroot', hpost⟩ := uvmallocLoop_spec hend oldsz newsz perm hold fuel
            (a + PGSIZE) hinv₂ (by rw [Nat.add_mod_right]; exact hal) (by omega) hnext
            (by rw [hne _ (by omega)]; exact htf)
            (fun x h1 h2 h3 => by rw [hne x (by unfold PGSIZE at h1; omega)]; exact hfree x (by omega) h2 h3)
            (by rw [Nat.succ_mul] at hfuel; omega) h
          refine ⟨hinv', hroot'.trans hroot₂, ?_⟩
          rcases hpost with ⟨hr, hle, hmap, hsame⟩ | ⟨hr, hclr, hsame⟩
          · refine .inl ⟨hr, hle, fun x h1 h2 h3 => ?_, fun x hx => ?_⟩
            · by_cases hxa : x = a
              · subst hxa
                refine ⟨(allocFor (fun _ => .user s.pt.root x) s.pm).1, ?_⟩
                rw [hsame x (by omega), hleaf₂, Function.update_self]
              · exact hmap x (by unfold PGSIZE at *; omega) h2 h3
            · have hxa : x ≠ a := fun hxa => hx ⟨by omega, hxa ▸ han, hxa ▸ hal⟩
              rw [hsame x (by omega), hne x hxa]
          · refine .inr ⟨hr, hclr, fun x hx => ?_⟩
            have hxa : x ≠ a := fun hxa => hx ⟨hxa ▸ hoa, hxa ▸ han, hxa ▸ hlt⟩
            rw [hsame x hx, hne x hxa]
        · -- no memory for a table: give the page back, then roll back
          rw [if_pos (by decide), StateT.run_bind,
            kfreeFrom_run hinv₂.pageInv hmemheld, pure_bind] at h
          have hnone₂ : s₂.pt.leaf a = none := by
            rw [hleaf₂]
            exact hfree a (Nat.le_refl a) han hlt
          have hinv₃ := hinv₂.freeUnmapped (hroot₂ ▸ hmemheld) hnone₂
          rw [hroot₂] at hinv₃
          obtain ⟨r₀, s₄, hrun₄, hinv₄, hroot₄, hback⟩ := rollback_spec hinv₃ hold hal hoa hatf han
            (fun x h1 h2 h3 => by dsimp only; rw [hleaf₂]; exact hfree x h1 h2 h3)
          rw [run_bind_of_eq_ok hrun₄] at h
          cases h
          refine ⟨hinv₄, hroot₄.trans hroot₂, .inr ⟨rfl, ?_⟩⟩
          dsimp only at hback
          rwa [hleaf₂] at hback

/-- **UVMALLOC**, the whole call over a table with nothing mapped between
    `PGROUNDUP(oldsz)` and the trapframe: a smaller size is returned as is;
    `newsz` comes back with every page up to it mapped; `0` comes back with
    the leaves as they were. -/
theorem uvmalloc_spec (hend : 0 < kend) {s : Vm} (hinv : TableInv kend O s) {oldsz newsz : Nat}
    (xperm : Perm) (hold : PGROUNDUP oldsz ≤ TRAPFRAME) (htf : (s.pt.leaf TRAPFRAME).isSome)
    (hfree : ∀ x, PGROUNDUP oldsz ≤ x → x < TRAPFRAME → s.pt.leaf x = none) {r : Nat} {s' : Vm}
    (h : (uvmalloc kend oldsz newsz xperm).run s = .ok (r, s')) :
    TableInv kend O s' ∧ s'.pt.root = s.pt.root ∧
      ((newsz < oldsz ∧ r = oldsz ∧ s'.pt.leaf = s.pt.leaf) ∨
        (r = newsz ∧ oldsz ≤ newsz ∧ newsz ≤ TRAPFRAME ∧
          Grown (PGROUNDUP oldsz) newsz (PTE_R ||| PTE_U ||| xperm) s.pt.leaf s'.pt.leaf) ∨
        (r = 0 ∧ s'.pt.leaf = s.pt.leaf)) := by
  unfold uvmalloc at h
  split at h
  · next hlt =>
      cases h
      exact ⟨hinv, rfl, .inl ⟨hlt, rfl, rfl⟩⟩
  · next hge =>
      have hpg : 0 < PGSIZE := by decide
      obtain ⟨hinv', hroot, hpost⟩ := uvmallocLoop_spec hend (PGROUNDUP oldsz) newsz _
        (PGROUNDUP_mod oldsz) (newsz / PGSIZE + 1) (PGROUNDUP oldsz) hinv (PGROUNDUP_mod oldsz)
        (Nat.le_refl _) hold htf (fun x h1 _ h3 => hfree x h1 h3)
        (by unfold PGSIZE; omega) h
      refine ⟨hinv', hroot, .inr ?_⟩
      rcases hpost with ⟨hr, hle, hgrown⟩ | ⟨hr, hclr, hsame⟩
      · exact .inl ⟨hr, Nat.le_of_not_lt hge, hle, hgrown⟩
      · -- a rollback clears only what was free to begin with
        refine .inr ⟨hr, funext fun x => ?_⟩
        by_cases hx : PGROUNDUP oldsz ≤ x ∧ x < newsz ∧ x < TRAPFRAME
        · rw [hclr x hx.1 hx.2.1 hx.2.2, hfree x hx.1 hx.2.2]
        · exact hsame x hx

/-- Leaf `x` of the child copies the parent's: a page with the parent's
    permissions where the parent has one, none where it has none. -/
def Copied (old : PageTable) (x : Nat) (l : Option Pte) : Prop :=
  match old.lookup x with
  | none => l = none
  | some pte => ∃ pa, l = some ⟨pa, pte.perm⟩

/-- The rollback of `uvmcopy` when the round at `i` fails: unmapping and
    freeing the pages below `i` leaves the child no user page. -/
theorem copyRollback_spec {s : Vm} (hinv : TableInv kend O s) {i : Nat} (hal : i % PGSIZE = 0)
    (hi : i ≤ TRAPFRAME) (hfree : ∀ x, x < TRAPFRAME → i ≤ x → s.pt.leaf x = none) :
    ∃ s', (uvmunmap kend 0 (i / PGSIZE) true).run s = .ok ((), s') ∧ TableInv kend O s' ∧
      s'.pt.root = s.pt.root ∧ (∀ x, TRAPFRAME ≤ x → s'.pt.leaf x = s.pt.leaf x) ∧
      ∀ x, x < TRAPFRAME → s'.pt.leaf x = none := by
  have hn : 0 + i / PGSIZE * PGSIZE = i := by
    unfold PGSIZE at *
    omega
  obtain ⟨s', hrun, hinv', hroot, hleaf⟩ := uvmunmap_spec hinv (i / PGSIZE) true (Nat.zero_mod PGSIZE)
    (by rw [hn]; exact Nat.le_trans hi (by decide)) (fun _ => by rw [hn]; exact hi)
  refine ⟨s', hrun, hinv', hroot, fun x hx => ?_, fun x hx => ?_⟩
  · rw [hleaf, hn]
    dsimp only
    rw [if_neg (by omega)]
  · rw [hleaf, hn]
    dsimp only
    split
    · rfl
    · exact hfree x hx (by omega)

/-- **UVMCOPY**: the loop from `i`, when it returns, copied every page of
    the parent below `sz` or, failing, left the child no user page. -/
theorem uvmcopyLoop_spec (hend : 0 < kend) (old : PageTable) (sz : Nat) (hsz : sz ≤ TRAPFRAME) :
    ∀ (fuel i : Nat) {s : Vm} {r : Int} {s' : Vm}, TableInv kend O s → i % PGSIZE = 0 →
      i ≤ PGROUNDUP sz → sz ≤ i + fuel * PGSIZE →
      (∀ x, x < TRAPFRAME → x % PGSIZE = 0 → x < i → Copied old x (s.pt.leaf x)) →
      (∀ x, x < TRAPFRAME → i ≤ x → s.pt.leaf x = none) →
      (uvmcopyLoop kend old sz fuel i).run s = .ok (r, s') →
      TableInv kend O s' ∧ s'.pt.root = s.pt.root ∧
        (∀ x, TRAPFRAME ≤ x → s'.pt.leaf x = s.pt.leaf x) ∧
        ((r = 0 ∧ ∀ x, x < TRAPFRAME → x % PGSIZE = 0 →
            (x < sz → Copied old x (s'.pt.leaf x)) ∧ (sz ≤ x → s'.pt.leaf x = none)) ∨
          (r = -1 ∧ ∀ x, x < TRAPFRAME → s'.pt.leaf x = none))
  | 0, i, s, r, s', hinv, hal, hi, hfuel, hcopied, hfree, h => by
      simp only [uvmcopyLoop] at h
      cases h
      refine ⟨hinv, rfl, fun _ _ => rfl, .inl ⟨rfl, fun x hx hxa => ⟨fun hxs => ?_, fun hxs => ?_⟩⟩⟩
      · exact hcopied x hx hxa (by omega)
      · have := (PGROUNDUP_le_iff hxa).mpr hxs
        exact hfree x hx (by omega)
  | fuel + 1, i, s, r, s', hinv, hal, hi, hfuel, hcopied, hfree, h => by
      have hpg : 0 < PGSIZE := by decide
      simp only [uvmcopyLoop] at h
      split at h
      swap
      · -- the copy is done
        next hge =>
          cases h
          refine ⟨hinv, rfl, fun _ _ => rfl, .inl ⟨rfl, fun x hx hxa =>
            ⟨fun hxs => hcopied x hx hxa (by omega), fun hxs => ?_⟩⟩⟩
          have := (PGROUNDUP_le_iff hxa).mpr hxs
          exact hfree x hx (by omega)
      next hlt =>
      have hitf : i < TRAPFRAME := Nat.lt_of_lt_of_le hlt hsz
      have hmax : i < MAXVA := Nat.lt_of_lt_of_le hitf (by decide)
      rw [if_neg (Nat.not_le.mpr hmax)] at h
      -- the next round starts one page up, still at most `PGROUNDUP sz`
      have hal' : (i + PGSIZE) % PGSIZE = 0 := by rw [Nat.add_mod_right]; exact hal
      have hi' : i + PGSIZE ≤ PGROUNDUP sz := by
        have := le_PGROUNDUP sz
        have := PGROUNDUP_mod sz
        unfold PGSIZE at *
        omega
      have hfuel' : sz ≤ i + PGSIZE + fuel * PGSIZE := by
        rw [Nat.succ_mul] at hfuel
        omega
      have hinpage : ∀ x, x % PGSIZE = 0 → x < i + PGSIZE → x ≠ i → x < i := fun x hx h1 h2 => by
        unfold PGSIZE at *
        omega
      split at h
      · -- the parent has no page here
        next hnone =>
          refine uvmcopyLoop_spec hend old sz hsz fuel (i + PGSIZE) hinv hal' hi' hfuel'
            (fun x hx hxa hxi => ?_) (fun x hx hxi => hfree x hx (by omega)) h
          by_cases hxe : x = i
          · subst hxe
            simp only [Copied, hnone]
            exact hfree x hx (Nat.le_refl x)
          · exact hcopied x hx hxa (hinpage x hxa hxi hxe)
      · -- the parent has a page: copy it
        next pte hpte =>
          simp only [StateT.run_bind, StateT.run_get, pure_bind, kallocFor_run] at h
          have hinv₁ := hinv.allocFor hend fun _ => .user s.pt.root i
          split at h
          · -- no memory: unmap what was copied
            obtain ⟨s₂, hrun₂, hinv₂, hroot₂, htf₂, hnone₂⟩ :=
              copyRollback_spec hinv₁ hal (Nat.le_of_lt hitf) (fun x hx hxi => hfree x hx hxi)
            rw [run_bind_of_eq_ok hrun₂] at h
            cases h
            exact ⟨hinv₂, hroot₂, htf₂, .inr ⟨rfl, hnone₂⟩⟩
          · next hmem =>
            obtain ⟨res, s₂, hrun₂, hinv₂, hroot₂, hheld₂, hres⟩ := mappages_page_spec hend hinv₁
              pte.perm hmax hal (hfree i hitf (Nat.le_refl i)) fun _ => allocFor_held _ hmem
            rw [run_bind_of_eq_ok hrun₂] at h
            dsimp only at hroot₂ hheld₂ hres
            have hne : ∀ x, x ≠ i → s₂.pt.leaf x = s.pt.leaf x := fun x hx => by
              rcases hres with ⟨-, hleaf₂⟩ | ⟨-, hleaf₂⟩
              · rw [hleaf₂, Function.update_of_ne hx]
              · rw [hleaf₂]
            rcases hres with ⟨rfl, hleaf₂⟩ | ⟨rfl, hleaf₂⟩
            · -- copied: the rest of the loop
              rw [if_neg (by decide)] at h
              have hcopied₂ : ∀ x, x < TRAPFRAME → x % PGSIZE = 0 → x < i + PGSIZE →
                  Copied old x (s₂.pt.leaf x) := by
                intro x hx hxa hxi
                by_cases hxe : x = i
                · subst hxe
                  simp only [Copied, hpte, hleaf₂, Function.update_self]
                  exact ⟨_, rfl⟩
                · rw [hne x hxe]
                  exact hcopied x hx hxa (hinpage x hxa hxi hxe)
              obtain ⟨hinv', hroot', htf', hpost⟩ := uvmcopyLoop_spec hend old sz hsz fuel
                (i + PGSIZE) hinv₂ hal' hi' hfuel' hcopied₂
                (fun x hx hxi => by rw [hne x (by omega)]; exact hfree x hx (by omega)) h
              refine ⟨hinv', hroot'.trans hroot₂, fun x hx => ?_, hpost⟩
              rw [htf' x hx, hne x (by omega)]
            · -- no memory for a table: give the page back, unmap what was copied
              rw [if_pos (by decide), StateT.run_bind,
                kfreeFrom_run hinv₂.pageInv (hheld₂ _ (allocFor_held _ hmem)), pure_bind] at h
              have hnone₂ : s₂.pt.leaf i = none := by
                rw [hleaf₂]
                exact hfree i hitf (Nat.le_refl i)
              have hinv₃ := hinv₂.freeUnmapped (hroot₂ ▸ hheld₂ _ (allocFor_held _ hmem)) hnone₂
              rw [hroot₂] at hinv₃
              obtain ⟨s₄, hrun₄, hinv₄, hroot₄, htf₄, hnone₄⟩ := copyRollback_spec hinv₃ hal (Nat.le_of_lt hitf)
                (fun x hx hxi => by dsimp only; rw [hleaf₂]; exact hfree x hx hxi)
              rw [run_bind_of_eq_ok hrun₄] at h
              cases h
              refine ⟨hinv₄, hroot₄.trans hroot₂, fun x hx => ?_, .inr ⟨rfl, hnone₄⟩⟩
              rw [htf₄ x hx]
              dsimp only
              rw [hleaf₂]

/-! ## Taking a table apart -/

/-- The invariant while `freewalk` takes apart a table with no leaf: what
    is left of the table is held, and so are the entries `O`. -/
structure FreeInv (kend : Nat) (O : Nat × Holder → Prop) (r : Nat) (s : Vm) : Prop where
  pageInv : PageInv kend s.pm
  root : s.pt.root = r
  tracked : Tracked s.pt s.pm.held
  others : ∀ e, O e → e ∈ s.pm.held
  apart : ∀ e, O e → ¬ e.2.under r
  noLeaf : ∀ a, s.pt.leaf a = none

/-- Dropping the entry of one holder keeps the entries of the others. -/
theorem mem_erase_of_snd_ne {l : List (Nat × Holder)} {e : Nat × Holder} (he : e ∈ l) {pa : Nat}
    {h : Holder} (hne : e.2 ≠ h) : e ∈ l.erase (pa, h) :=
  (List.mem_erase_of_ne fun heq => hne (by rw [heq])).mpr he

/-- Freeing the level-0 table of region `j` and clearing its entry. -/
theorem FreeInv.freeL0 {s : Vm} {r : Nat} (hinv : FreeInv kend O r s) {j : Nat}
    (hj : s.pt.l0 j ≠ 0) :
    FreeInv kend O r ⟨{ s.pt with l0 := Function.update s.pt.l0 j 0 },
      ⟨⟨s.pt.l0 j :: s.pm.kmem.freelist⟩, s.pm.held.erase (s.pt.l0 j, .table s.pt.root 0 j)⟩⟩ := by
  have hheld := hinv.tracked.l0 j hj
  have hok := freeFrom_of_held hinv.pageInv hheld
  refine ⟨freeFrom_pageInv hinv.pageInv hheld hok, hinv.root, ⟨?_, ?_, ?_, ?_⟩, ?_, hinv.apart,
    hinv.noLeaf⟩
  · exact mem_erase_of_snd_ne hinv.tracked.root (by simp)
  · exact fun i hi => mem_erase_of_snd_ne (hinv.tracked.l1 i hi) (by simp)
  · intro j' hj'
    have hjj : j' ≠ j := fun h => by subst h; simp at hj'
    dsimp only at hj' ⊢
    rw [Function.update_of_ne hjj] at hj' ⊢
    exact mem_erase_of_snd_ne (hinv.tracked.l0 j' hj') (by simpa using hjj)
  · intro a pte hl
    rw [hinv.noLeaf a] at hl
    cases hl
  · intro e he
    refine mem_erase_of_snd_ne (hinv.others e he) fun heq => hinv.apart e he ?_
    rw [heq, ← hinv.root]
    rfl

/-- Freeing the level-1 table under root entry `i` and clearing its entry. -/
theorem FreeInv.freeL1 {s : Vm} {r : Nat} (hinv : FreeInv kend O r s) {i : Nat}
    (hi : s.pt.l1 i ≠ 0) :
    FreeInv kend O r ⟨{ s.pt with l1 := Function.update s.pt.l1 i 0 },
      ⟨⟨s.pt.l1 i :: s.pm.kmem.freelist⟩, s.pm.held.erase (s.pt.l1 i, .table s.pt.root 1 i)⟩⟩ := by
  have hheld := hinv.tracked.l1 i hi
  have hok := freeFrom_of_held hinv.pageInv hheld
  refine ⟨freeFrom_pageInv hinv.pageInv hheld hok, hinv.root, ⟨?_, ?_, ?_, ?_⟩, ?_, hinv.apart,
    hinv.noLeaf⟩
  · exact mem_erase_of_snd_ne hinv.tracked.root (by simp)
  · intro i' hi'
    have hii : i' ≠ i := fun h => by subst h; simp at hi'
    dsimp only at hi' ⊢
    rw [Function.update_of_ne hii] at hi' ⊢
    exact mem_erase_of_snd_ne (hinv.tracked.l1 i' hi') (by simpa using hii)
  · exact fun j hj => mem_erase_of_snd_ne (hinv.tracked.l0 j hj) (by simp)
  · intro a pte hl
    rw [hinv.noLeaf a] at hl
    cases hl
  · intro e he
    refine mem_erase_of_snd_ne (hinv.others e he) fun heq => hinv.apart e he ?_
    rw [heq, ← hinv.root]
    rfl

/-- The leaf check of `freewalk0` passes over a table with no leaf. -/
theorem leafCheck_run (j : Nat) {s : Vm} (hno : ∀ a, s.pt.leaf a = none) :
    ((List.range 512).forM fun k => (do
      if ((← get).pt.leaf ((j * 512 + k) * PGSIZE)).isSome then throw "freewalk: leaf" : VmM Unit)).run s =
      .ok (⟨⟩, s) := by
  obtain ⟨s', h, rfl⟩ := forM_run_ok (P := fun t => t = s) (f := fun k => (do
      if ((← get).pt.leaf ((j * 512 + k) * PGSIZE)).isSome then throw "freewalk: leaf" : VmM Unit))
    (fun k t ht => ⟨t, by subst ht; simp [hno]; rfl, ht⟩) (List.range 512) rfl
  exact h

/-- One round of `freewalk1`: a valid level-0 table is taken apart. -/
theorem freewalk1Round_spec {s : Vm} {r : Nat} (hinv : FreeInv kend O r s) (j : Nat) :
    ∃ s', (do
      if (← get).pt.l0 j ≠ 0 then
        freewalk0 kend j
        modify fun s => { s with pt := { s.pt with l0 := Function.update s.pt.l0 j 0 } } : VmM Unit).run s =
      .ok (⟨⟩, s') ∧ FreeInv kend O r s' ∧ s'.pt.l1 = s.pt.l1 := by
  simp only [StateT.run_bind, StateT.run_get, pure_bind]
  split
  · next hj =>
      simp only [freewalk0, StateT.run_bind, run_bind_of_eq_ok (leafCheck_run j hinv.noLeaf),
        StateT.run_get, pure_bind, kfreeFrom_run hinv.pageInv (hinv.tracked.l0 j hj)]
      exact ⟨_, rfl, hinv.freeL0 hj, rfl⟩
  · exact ⟨s, rfl, hinv, rfl⟩

/-- One round of `freewalk`: a valid level-1 table is taken apart, its
    level-0 tables first. -/
theorem freewalkRound_spec {s : Vm} {r : Nat} (hinv : FreeInv kend O r s) (i : Nat) :
    ∃ s', (do
      if (← get).pt.l1 i ≠ 0 then
        freewalk1 kend i
        modify fun s => { s with pt := { s.pt with l1 := Function.update s.pt.l1 i 0 } } : VmM Unit).run s =
      .ok (⟨⟩, s') ∧ FreeInv kend O r s' := by
  simp only [StateT.run_bind, StateT.run_get, pure_bind]
  split
  · next hi =>
      -- the level-0 tables go first; the level-1 entries stay as they are
      obtain ⟨s₁, hloop, hinv₁, hl1⟩ := forM_run_ok
        (P := fun t => FreeInv kend O r t ∧ t.pt.l1 = s.pt.l1)
        (fun k t ht => by
          obtain ⟨t', h, hinv', hl1'⟩ := freewalk1Round_spec ht.1 (i * 512 + k)
          exact ⟨t', h, hinv', hl1'.trans ht.2⟩)
        (List.range 512) ⟨hinv, rfl⟩
      have hi₁ : s₁.pt.l1 i ≠ 0 := hl1 ▸ hi
      simp only [freewalk1, StateT.run_bind, run_bind_of_eq_ok hloop, StateT.run_get, pure_bind,
        kfreeFrom_run hinv₁.pageInv (hinv₁.tracked.l1 i hi₁)]
      exact ⟨_, rfl, hinv₁.freeL1 hi₁⟩
  · exact ⟨s, rfl, hinv⟩

/-- **FREEWALK**: a table with no leaf is taken apart without a panic; the
    ownership invariant holds after, and the entries `O` are still held. -/
theorem freewalk_spec {s : Vm} {r : Nat} (hinv : FreeInv kend O r s) :
    ∃ s', (freewalk kend).run s = .ok ((), s') ∧ PageInv kend s'.pm ∧ ∀ e, O e → e ∈ s'.pm.held := by
  obtain ⟨s₁, hloop, hinv₁⟩ := forM_run_ok (P := FreeInv kend O r)
    (fun i t ht => freewalkRound_spec ht i) (List.range 512) hinv
  have hheld := hinv₁.tracked.root
  simp only [freewalk, StateT.run_bind, run_bind_of_eq_ok hloop, StateT.run_get, pure_bind,
    kfreeFrom_run hinv₁.pageInv hheld]
  refine ⟨_, rfl, freeFrom_pageInv hinv₁.pageInv hheld (freeFrom_of_held hinv₁.pageInv hheld),
    fun e he => mem_erase_of_snd_ne (hinv₁.others e he) fun heq => hinv₁.apart e he ?_⟩
  rw [heq, ← hinv₁.root]
  rfl

theorem TableInv.freeInv {s : Vm} (hinv : TableInv kend O s) (hno : ∀ a, s.pt.leaf a = none) :
    FreeInv kend O s.pt.root s :=
  ⟨hinv.pageInv, rfl, hinv.tracked, hinv.others, hinv.apart, hno⟩

/-- **UVMFREE**: a table whose leaves all lie below `PGROUNDUP(sz)` is freed
    without a panic: `uvmunmap` takes the leaves, then `freewalk` never
    meets one. -/
theorem uvmfree_spec {s : Vm} (hinv : TableInv kend O s) {sz : Nat} (hsz : PGROUNDUP sz ≤ TRAPFRAME)
    (hbelow : ∀ a pte, s.pt.leaf a = some pte → a < PGROUNDUP sz) :
    ∃ s', (uvmfree kend sz).run s = .ok ((), s') ∧ PageInv kend s'.pm ∧
      ∀ e, O e → e ∈ s'.pm.held := by
  have hn : 0 + PGROUNDUP sz / PGSIZE * PGSIZE = PGROUNDUP sz := by
    have := PGROUNDUP_mod sz
    unfold PGSIZE at *
    omega
  by_cases hpos : sz > 0
  · obtain ⟨s₁, hrun₁, hinv₁, hroot₁, hleaf₁⟩ := uvmunmap_spec hinv (PGROUNDUP sz / PGSIZE) true
      (Nat.zero_mod PGSIZE) (by rw [hn, MAXVA_eq]; rw [TRAPFRAME_eq] at hsz; omega)
      (fun _ => by rw [hn]; exact hsz)
    have hno : ∀ a, s₁.pt.leaf a = none := fun a => by
      rw [hleaf₁, hn]
      dsimp only
      split
      · rfl
      · next hout =>
          cases hl : s.pt.leaf a with
          | none => rfl
          | some pte => exact absurd ⟨Nat.zero_le a, hbelow a pte hl⟩ hout
    obtain ⟨s₂, hrun₂, hpage, hothers⟩ := freewalk_spec (hinv₁.freeInv hno)
    refine ⟨s₂, ?_, hpage, hothers⟩
    rw [uvmfree, if_pos hpos, run_bind_of_eq_ok hrun₁]
    exact hrun₂
  · -- a size of `0` leaves no leaf to take
    have hno : ∀ a, s.pt.leaf a = none := fun a => by
      cases hl : s.pt.leaf a with
      | none => rfl
      | some pte =>
          have := hbelow a pte hl
          simp [show sz = 0 by omega, PGROUNDUP, PGSIZE] at this
    obtain ⟨s₂, hrun₂, hpage, hothers⟩ := freewalk_spec (hinv.freeInv hno)
    refine ⟨s₂, ?_, hpage, hothers⟩
    rw [uvmfree, if_neg hpos]
    exact hrun₂

end Loops

end Xv6.Mem
