import Mathlib

/-! # The physical page allocator

    `kalloc.c` keeps the free pages of `[PGROUNDUP(end), PHYSTOP)` on a
    list threaded through the pages themselves: `kfree` pushes a page,
    `kalloc` pops the head.  `end` is the first address after the kernel,
    fixed by the linker; it is the parameter `kend`.  The list is `Kmem`,
    head first; the junk `memset`s do not change which page is where and are
    not modelled.

    Which page is where is the allocator's whole contract.  A page taken
    with `kalloc` goes to one holder (a user mapping, a page-table page, a
    trapframe, ...), and the holder gives it back with `kfree`.  `PhysMem`
    records the holders next to the free list, and `PageInv` is the
    ownership invariant: every page of the range is on the free list exactly
    once or held exactly once, never both and never neither.

    * `kinit_eq`, `kinit_pageInv`: `kinit` frees every page of the range
      once, in increasing order, so the invariant holds after boot;
    * `allocFor_pageInv`, `freeFrom_pageInv`: a `kalloc` for a holder and a
      `kfree` by the page's holder keep it;
    * `kinfo_leaks_page`: `sys_kinfo` pops a page and drops it, which
      breaks the invariant from every state that has a free page. -/

namespace Xv6.Mem

/-- `PGSIZE`: bytes per page. -/
def PGSIZE : Nat := 4096

/-- `KERNBASE`: the kernel's first physical address. -/
def KERNBASE : Nat := 0x80000000

/-- `PHYSTOP`: the end of the RAM the kernel uses. -/
def PHYSTOP : Nat := KERNBASE + 128 * 1024 * 1024

/-- `PGROUNDUP(sz)`, `((sz) + PGSIZE - 1) & ~(PGSIZE-1)`, for sizes that do
    not wrap. -/
def PGROUNDUP (sz : Nat) : Nat := (sz + PGSIZE - 1) / PGSIZE * PGSIZE

/-- `PGROUNDDOWN(a)`, `a & ~(PGSIZE-1)`. -/
def PGROUNDDOWN (a : Nat) : Nat := a / PGSIZE * PGSIZE

theorem PGROUNDUP_mod (sz : Nat) : PGROUNDUP sz % PGSIZE = 0 := by
  simp [PGROUNDUP]

theorem le_PGROUNDUP (sz : Nat) : sz ≤ PGROUNDUP sz := by
  unfold PGROUNDUP PGSIZE
  omega

theorem PGROUNDUP_lt (sz : Nat) : PGROUNDUP sz < sz + PGSIZE := by
  unfold PGROUNDUP PGSIZE
  omega

theorem PGROUNDUP_of_mod {sz : Nat} (h : sz % PGSIZE = 0) : PGROUNDUP sz = sz := by
  unfold PGROUNDUP
  unfold PGSIZE at *
  omega

/-- An aligned address at or above `PGROUNDUP sz` is at or above `sz`, and
    one below it is below `sz`. -/
theorem PGROUNDUP_le_iff {sz pa : Nat} (h : pa % PGSIZE = 0) : PGROUNDUP sz ≤ pa ↔ sz ≤ pa := by
  unfold PGROUNDUP
  unfold PGSIZE at *
  omega

/-! ## `kalloc.c` -/

/-- `kmem`: the free list, head first. -/
structure Kmem where
  freelist : List Nat
deriving DecidableEq, Repr

section Allocator

variable (kend : Nat)

/-- `kfree(pa)`: a page that is misaligned, below `end` or not below
    `PHYSTOP` panics; any other is pushed. -/
def kfree (pa : Nat) (m : Kmem) : Except String Kmem :=
  if pa % PGSIZE ≠ 0 ∨ pa < kend ∨ pa ≥ PHYSTOP then throw "kfree"
  else pure ⟨pa :: m.freelist⟩

/-- `kalloc()`: the head of the free list, `0` when it is empty. -/
def kalloc (m : Kmem) : Nat × Kmem :=
  match m.freelist with
  | [] => (0, m)
  | r :: rest => (r, ⟨rest⟩)

/-- The loop of `freerange` from page `p`, for at most `fuel` pages. -/
def freerangeLoop (pa_end : Nat) : Nat → Nat → Kmem → Except String Kmem
  | _, 0, m => pure m
  | p, fuel + 1, m =>
      if p + PGSIZE ≤ pa_end then do freerangeLoop pa_end (p + PGSIZE) fuel (← kfree kend p m)
      else pure m

/-- `freerange(pa_start, pa_end)`.  The loop moves one page up each time
    and stops below `pa_end`, so `pa_end / PGSIZE + 1` rounds are enough. -/
def freerange (pa_start pa_end : Nat) (m : Kmem) : Except String Kmem :=
  freerangeLoop kend pa_end (PGROUNDUP pa_start) (pa_end / PGSIZE + 1) m

/-- `kinit()`: `freerange(end, (void*)PHYSTOP)` on an empty list. -/
def kinit : Except String Kmem := freerange kend kend PHYSTOP ⟨[]⟩

/-- A page of the allocator's range `[PGROUNDUP(end), PHYSTOP)`. -/
def IsPage (pa : Nat) : Prop := pa % PGSIZE = 0 ∧ PGROUNDUP kend ≤ pa ∧ pa < PHYSTOP

instance (pa : Nat) : Decidable (IsPage kend pa) := inferInstanceAs (Decidable (_ ∧ _ ∧ _))

variable {kend}

/-- `kfree`'s check is exactly membership of the range. -/
theorem kfree_check_iff {pa : Nat} :
    ¬ (pa % PGSIZE ≠ 0 ∨ pa < kend ∨ pa ≥ PHYSTOP) ↔ IsPage kend pa := by
  constructor
  · intro h
    have hal : pa % PGSIZE = 0 := by omega
    exact ⟨hal, (PGROUNDUP_le_iff hal).mpr (by omega), by omega⟩
  · rintro ⟨hal, hlo, hhi⟩
    have := (PGROUNDUP_le_iff hal).mp hlo
    omega

theorem kfree_eq_ok {pa : Nat} {m m' : Kmem} :
    kfree kend pa m = .ok m' ↔ IsPage kend pa ∧ m' = ⟨pa :: m.freelist⟩ := by
  unfold kfree
  split
  · next h =>
      have : ¬ IsPage kend pa := fun hp => kfree_check_iff.mpr hp h
      simp only [this, false_and, iff_false]
      exact fun h => nomatch h
  · next h =>
      simp only [kfree_check_iff.mp h, true_and]
      exact ⟨fun h => (Except.ok.inj h).symm, fun h => h ▸ rfl⟩

theorem kfree_of_isPage {pa : Nat} (m : Kmem) (h : IsPage kend pa) :
    kfree kend pa m = .ok ⟨pa :: m.freelist⟩ :=
  kfree_eq_ok.mpr ⟨h, rfl⟩

theorem kalloc_cons {r : Nat} {rest : List Nat} : kalloc ⟨r :: rest⟩ = (r, ⟨rest⟩) := rfl

theorem kalloc_nil : kalloc ⟨[]⟩ = (0, ⟨[]⟩) := rfl

/-! ## Boot: `kinit` frees every page once -/

/-- From an aligned page at or above `end`, the loop frees the pages
    `p, p + PGSIZE, ...` below `pa_end` in that order, each pushed on the
    list, when the fuel covers them. -/
theorem freerangeLoop_eq {pa_end : Nat} (hend : pa_end ≤ PHYSTOP) :
    ∀ (fuel p : Nat) (m : Kmem), p % PGSIZE = 0 → kend ≤ p →
      (pa_end - p) / PGSIZE < fuel →
      freerangeLoop kend pa_end p fuel m =
        .ok ⟨(List.range' p ((pa_end - p) / PGSIZE) PGSIZE).reverse ++ m.freelist⟩
  | 0, _, _, _, _, hfuel => absurd hfuel (Nat.not_lt_zero _)
  | fuel + 1, p, m, hal, hlo, hfuel => by
      by_cases hroom : p + PGSIZE ≤ pa_end
      · -- one page is freed, and the rest of the range starts one page up
        have hpage : IsPage kend p :=
          ⟨hal, (PGROUNDUP_le_iff hal).mpr hlo, by unfold PGSIZE at hroom; omega⟩
        have hcount : (pa_end - p) / PGSIZE = (pa_end - (p + PGSIZE)) / PGSIZE + 1 := by
          unfold PGSIZE at *
          omega
        have ih := freerangeLoop_eq hend fuel (p + PGSIZE) ⟨p :: m.freelist⟩
          (by unfold PGSIZE at *; omega) (by omega) (by rw [hcount] at hfuel; omega)
        simp only [freerangeLoop, if_pos hroom, kfree_of_isPage m hpage, bind, Except.bind, ih,
          hcount, List.range'_succ, List.reverse_cons, List.append_assoc, List.singleton_append]
      · have hnone : (pa_end - p) / PGSIZE = 0 := by
          unfold PGSIZE at *
          omega
        simp [freerangeLoop, if_neg hroom, hnone]
        rfl

/-- The free pages after boot, highest first. -/
def bootFree (kend : Nat) : List Nat :=
  (List.range' (PGROUNDUP kend) ((PHYSTOP - PGROUNDUP kend) / PGSIZE) PGSIZE).reverse

theorem kinit_eq : kinit kend = .ok ⟨bootFree kend⟩ := by
  have h := @freerangeLoop_eq kend PHYSTOP (Nat.le_refl PHYSTOP) (PHYSTOP / PGSIZE + 1)
    (PGROUNDUP kend) ⟨[]⟩ (PGROUNDUP_mod kend) (le_PGROUNDUP kend)
    (Nat.lt_succ_of_le (Nat.div_le_div_right (Nat.sub_le _ _)))
  simpa [kinit, freerange, bootFree] using h

theorem mem_bootFree {pa : Nat} : pa ∈ bootFree kend ↔ IsPage kend pa := by
  have hR := PGROUNDUP_mod kend
  simp only [bootFree, List.mem_reverse, List.mem_range']
  constructor
  · rintro ⟨i, hi, rfl⟩
    refine ⟨?_, by omega, ?_⟩
    · unfold PGSIZE at *
      omega
    · unfold PGSIZE PHYSTOP KERNBASE at *
      omega
  · rintro ⟨hal, hlo, hhi⟩
    refine ⟨(pa - PGROUNDUP kend) / PGSIZE, ?_, ?_⟩
    · unfold PGSIZE PHYSTOP KERNBASE at *
      omega
    · unfold PGSIZE at *
      omega

theorem bootFree_nodup : (bootFree kend).Nodup :=
  List.nodup_reverse.mpr (List.nodup_range' PGSIZE (by decide))

/-! ## Holders and the ownership invariant -/

end Allocator

/-- Who holds a page taken with `kalloc`.  A page table is named by its
    root page: the user page it maps at `va`, its own pages (the root at
    level 2, the level-1 table of key `key` at level 1, the level-0 table of
    key `key` at level 0), and the trapframe of a process slot. -/
inductive Holder where
  | user (root va : Nat)
  | table (root level key : Nat)
  | trapframe (slot : Nat)
deriving DecidableEq, Repr

/-- Physical memory between system calls: the allocator's list and the
    pages out of it, each with its holder. -/
structure PhysMem where
  kmem : Kmem
  held : List (Nat × Holder)
deriving DecidableEq, Repr

/-- How many holders page `pa` has. -/
def PhysMem.heldCount (pm : PhysMem) (pa : Nat) : Nat := pm.held.countP (·.1 == pa)

/-- How many places page `pa` is in: on the free list or with a holder. -/
def PhysMem.places (pm : PhysMem) (pa : Nat) : Nat := pm.kmem.freelist.count pa + pm.heldCount pa

section Ownership

variable (kend : Nat)

/-- **The ownership invariant.**  Only pages of the range are free or
    held, and each of them is in exactly one place: on the free list once
    or with one holder, never both and never neither. -/
structure PageInv (pm : PhysMem) : Prop where
  free_isPage : ∀ pa ∈ pm.kmem.freelist, IsPage kend pa
  held_isPage : ∀ e ∈ pm.held, IsPage kend e.1
  one_place : ∀ pa, IsPage kend pa → pm.places pa = 1

/-- A page of the range that is neither free nor held. -/
def Leaked (pm : PhysMem) (pa : Nat) : Prop := IsPage kend pa ∧ pm.places pa = 0

/-- `kalloc()` for holder `h`: the page, if there is one, goes to `h pa`
    (a root page names its own table, so the holder may depend on the
    page). -/
def allocFor (h : Nat → Holder) (pm : PhysMem) : Nat × PhysMem :=
  let (pa, kmem) := kalloc pm.kmem
  (pa, { kmem, held := if pa = 0 then pm.held else (pa, h pa) :: pm.held })

/-- `kfree(pa)` by `h`, the holder of `pa`. -/
def freeFrom (h : Holder) (pa : Nat) (pm : PhysMem) : Except String PhysMem := do
  let kmem ← kfree kend pa pm.kmem
  pure { kmem, held := pm.held.erase (pa, h) }

/-- `sys_kinfo()`: the page of its `kalloc` is printed and dropped; the
    process listing changes nothing. -/
def sys_kinfo (pm : PhysMem) : PhysMem := { pm with kmem := (kalloc pm.kmem).2 }

variable {kend}

/-- Erasing a held entry takes one from the count of its page. -/
theorem countP_fst_erase {l : List (Nat × Holder)} {e : Nat × Holder} (he : e ∈ l) (pa : Nat) :
    (l.erase e).countP (·.1 == pa) + (if e.1 = pa then 1 else 0) = l.countP (·.1 == pa) := by
  rw [List.countP_erase]
  by_cases hp : e.1 = pa
  · have : 0 < l.countP (·.1 == pa) := List.countP_pos_iff.mpr ⟨e, he, by simp [hp]⟩
    simp only [he, hp, beq_self_eq_true, and_self, if_true]
    omega
  · simp [hp]

theorem kinit_pageInv : PageInv kend ⟨⟨bootFree kend⟩, []⟩ where
  free_isPage _ h := mem_bootFree.mp h
  held_isPage _ h := nomatch h
  one_place _ hpa := by
    simp [PhysMem.places, PhysMem.heldCount,
      List.count_eq_one_of_mem bootFree_nodup (mem_bootFree.mpr hpa)]

/-- With nothing free, `kalloc` returns `0` and changes nothing. -/
theorem allocFor_nil (h : Nat → Holder) {pm : PhysMem} (hfree : pm.kmem.freelist = []) :
    allocFor h pm = (0, pm) := by
  obtain ⟨⟨fl⟩, held⟩ := pm
  subst hfree
  rfl

/-- The page `kalloc` hands out is the head of the free list, and the
    holder of a nonzero page is recorded. -/
theorem allocFor_cons (h : Nat → Holder) {pm : PhysMem} {r : Nat} {rest : List Nat}
    (hfree : pm.kmem.freelist = r :: rest) (hr : r ≠ 0) :
    allocFor h pm = (r, ⟨⟨rest⟩, (r, h r) :: pm.held⟩) := by
  simp [allocFor, kalloc, hfree, hr]

theorem freeFrom_eq_ok {h : Holder} {pa : Nat} {pm pm' : PhysMem} :
    freeFrom kend h pa pm = .ok pm' ↔
      IsPage kend pa ∧ pm' = ⟨⟨pa :: pm.kmem.freelist⟩, pm.held.erase (pa, h)⟩ := by
  unfold freeFrom
  cases hk : kfree kend pa pm.kmem with
  | error msg =>
      have : ¬ IsPage kend pa := fun hp => by simp [kfree_of_isPage pm.kmem hp] at hk
      simp only [this, false_and, iff_false]
      exact fun h => nomatch h
  | ok m =>
      obtain ⟨hp, rfl⟩ := kfree_eq_ok.mp hk
      simp only [hp, true_and]
      exact ⟨fun h => (Except.ok.inj h).symm, fun h => h ▸ rfl⟩

/-- A `kalloc` moves its page from the list to its holder: no page changes
    its number of places. -/
theorem places_allocFor (h : Nat → Holder) {pm : PhysMem} {r : Nat} {rest : List Nat}
    (hfree : pm.kmem.freelist = r :: rest) (hr : r ≠ 0) (q : Nat) :
    (allocFor h pm).2.places q = pm.places q := by
  rw [allocFor_cons h hfree hr]
  simp only [PhysMem.places, PhysMem.heldCount, hfree, List.count_cons, List.countP_cons]
  omega

/-- A `kfree` by the page's holder moves it back to the list. -/
theorem places_freeFrom {h : Holder} {pa : Nat} {pm pm' : PhysMem} (hheld : (pa, h) ∈ pm.held)
    (hok : freeFrom kend h pa pm = .ok pm') (q : Nat) : pm'.places q = pm.places q := by
  obtain ⟨-, rfl⟩ := freeFrom_eq_ok.mp hok
  have hcnt := countP_fst_erase hheld q
  simp only [PhysMem.places, PhysMem.heldCount, List.count_cons] at hcnt ⊢
  by_cases hp : pa = q
  · simp only [hp, beq_self_eq_true, if_true] at hcnt ⊢
    omega
  · simp only [hp, beq_iff_eq, if_false] at hcnt ⊢
    omega

/-- **ALLOC**: a `kalloc` for a holder keeps the invariant.  A page of the
    range is not `0` once `end` is above `0`. -/
theorem allocFor_pageInv (hend : 0 < kend) (h : Nat → Holder) {pm : PhysMem} (hinv : PageInv kend pm) :
    PageInv kend (allocFor h pm).2 := by
  rcases hfree : pm.kmem.freelist with _ | ⟨r, rest⟩
  · simpa [allocFor, kalloc, hfree] using hinv
  · have hr : IsPage kend r := hinv.free_isPage r (by simp [hfree])
    have hr0 : r ≠ 0 := by
      have := le_PGROUNDUP kend
      have := hr.2.1
      omega
    refine ⟨fun pa hpa => hinv.free_isPage pa ?_, fun e he => ?_, fun pa hpa => ?_⟩
    · rw [allocFor_cons h hfree hr0] at hpa
      simp [hfree, hpa]
    · rw [allocFor_cons h hfree hr0] at he
      rcases List.mem_cons.mp he with rfl | he
      · exact hr
      · exact hinv.held_isPage e he
    · rw [places_allocFor h hfree hr0]
      exact hinv.one_place pa hpa

/-- **FREE**: a `kfree` by the page's holder keeps the invariant. -/
theorem freeFrom_pageInv {h : Holder} {pa : Nat} {pm pm' : PhysMem} (hinv : PageInv kend pm)
    (hheld : (pa, h) ∈ pm.held) (hok : freeFrom kend h pa pm = .ok pm') : PageInv kend pm' := by
  have hplaces := places_freeFrom hheld hok
  obtain ⟨hpa, rfl⟩ := freeFrom_eq_ok.mp hok
  refine ⟨?_, ?_, fun q hq => (hplaces q).trans (hinv.one_place q hq)⟩
  · rintro q (_ | ⟨_, hq⟩)
    · exact hpa
    · exact hinv.free_isPage q hq
  · exact fun e he => hinv.held_isPage e (List.mem_of_mem_erase he)

/-! ## What the invariant says about holders -/

/-- A held page is held once: two held entries of one page are one entry. -/
theorem held_unique {pm : PhysMem} (hinv : PageInv kend pm) {e e' : Nat × Holder}
    (he : e ∈ pm.held) (he' : e' ∈ pm.held) (hpa : e.1 = e'.1) : e = e' := by
  by_contra hne
  have hone := hinv.one_place e.1 (hinv.held_isPage e he)
  have herase := countP_fst_erase he e.1
  have hpos : 0 < (pm.held.erase e).countP (·.1 == e.1) :=
    List.countP_pos_iff.mpr ⟨e', (List.mem_erase_of_ne (Ne.symm hne)).mpr he', by simp [hpa]⟩
  simp only [if_true, PhysMem.places, PhysMem.heldCount] at herase hone
  omega

/-- The page `kalloc` hands out was free, so nothing held it. -/
theorem allocFor_fresh {pm : PhysMem} (hinv : PageInv kend pm) (h : Nat → Holder)
    (hpa : (allocFor h pm).1 ≠ 0) : ∀ e ∈ pm.held, e.1 ≠ (allocFor h pm).1 := by
  rcases hfree : pm.kmem.freelist with _ | ⟨r, rest⟩
  · simp [allocFor, kalloc, hfree] at hpa
  · have hr : (allocFor h pm).1 = r := by simp [allocFor, kalloc, hfree]
    rw [hr]
    intro e he hpe
    have hone := hinv.one_place r (hinv.free_isPage r (by simp [hfree]))
    have hheld : 0 < pm.heldCount r := List.countP_pos_iff.mpr ⟨e, he, by simp [hpe]⟩
    simp only [PhysMem.places, hfree, List.count_cons_self] at hone
    omega

theorem mem_allocFor_held {pm : PhysMem} (h : Nat → Holder) {e : Nat × Holder} (he : e ∈ pm.held) :
    e ∈ (allocFor h pm).2.held := by
  simp only [allocFor]
  split
  · exact he
  · exact List.mem_cons_of_mem _ he

theorem allocFor_held {pm : PhysMem} (h : Nat → Holder) (hpa : (allocFor h pm).1 ≠ 0) :
    ((allocFor h pm).1, h (allocFor h pm).1) ∈ (allocFor h pm).2.held := by
  simp only [allocFor] at hpa ⊢
  rw [if_neg hpa]
  exact List.mem_cons_self

theorem mem_freeFrom_held {h : Holder} {pa : Nat} {pm pm' : PhysMem}
    (hok : freeFrom kend h pa pm = .ok pm') {e : Nat × Holder} (he : e ∈ pm.held) (hne : e ≠ (pa, h)) :
    e ∈ pm'.held := by
  obtain ⟨-, rfl⟩ := freeFrom_eq_ok.mp hok
  exact (List.mem_erase_of_ne hne).mpr he

/-- A held page is a page, so `kfree` takes it back from its holder. -/
theorem freeFrom_of_held {pm : PhysMem} (hinv : PageInv kend pm) {h : Holder} {pa : Nat}
    (he : (pa, h) ∈ pm.held) :
    freeFrom kend h pa pm = .ok ⟨⟨pa :: pm.kmem.freelist⟩, pm.held.erase (pa, h)⟩ :=
  freeFrom_eq_ok.mpr ⟨hinv.held_isPage _ he, rfl⟩

/-- `sys_kinfo` takes the head of the list out of every place. -/
theorem places_kinfo {pm : PhysMem} {r : Nat} {rest : List Nat} (hfree : pm.kmem.freelist = r :: rest)
    (q : Nat) : (sys_kinfo pm).places q + (if r = q then 1 else 0) = pm.places q := by
  simp only [PhysMem.places, PhysMem.heldCount, sys_kinfo, kalloc, hfree, List.count_cons]
  by_cases hp : r = q
  · simp only [hp, beq_self_eq_true, if_true]
    omega
  · simp only [hp, beq_iff_eq, if_false]
    omega

/-- **LEAK**: from any state of the invariant with a free page,
    `sys_kinfo` leaves the page it took neither free nor held. -/
theorem kinfo_leaks_page {pm : PhysMem} (hinv : PageInv kend pm) (hfree : pm.kmem.freelist ≠ []) :
    ∃ pa, Leaked kend (sys_kinfo pm) pa ∧ ¬ PageInv kend (sys_kinfo pm) := by
  obtain ⟨r, rest, hr⟩ := List.exists_cons_of_ne_nil hfree
  have hpage : IsPage kend r := hinv.free_isPage r (by simp [hr])
  have hgone : (sys_kinfo pm).places r = 0 := by
    have h1 := places_kinfo hr r
    have h2 := hinv.one_place r hpage
    simp only [if_true] at h1
    omega
  refine ⟨r, ⟨hpage, hgone⟩, fun hinv' => ?_⟩
  have := hinv'.one_place r hpage
  omega

theorem bootFree_ne_nil (hroom : PGROUNDUP kend < PHYSTOP) : bootFree kend ≠ [] := by
  have hR := PGROUNDUP_mod kend
  apply List.ne_nil_of_mem (a := PGROUNDUP kend)
  exact mem_bootFree.mpr ⟨hR, Nat.le_refl _, hroom⟩

/-- A kernel that ends `0x22000` bytes above `KERNBASE`: `sys_kinfo` right
    after `kinit` leaks a page. -/
theorem kinfo_leaks_page_after_kinit :
    kinit (KERNBASE + 0x22000) = .ok ⟨bootFree (KERNBASE + 0x22000)⟩ ∧
      ∃ pa, Leaked (KERNBASE + 0x22000) (sys_kinfo ⟨⟨bootFree (KERNBASE + 0x22000)⟩, []⟩) pa ∧
        ¬ PageInv (KERNBASE + 0x22000) (sys_kinfo ⟨⟨bootFree (KERNBASE + 0x22000)⟩, []⟩) := by
  have hroom : PGROUNDUP (KERNBASE + 0x22000) < PHYSTOP := by
    unfold PGROUNDUP PGSIZE PHYSTOP KERNBASE
    omega
  -- reduce the projection first, so that `bootFree` is never unfolded
  have hfree : (⟨⟨bootFree (KERNBASE + 0x22000)⟩, []⟩ : PhysMem).kmem.freelist ≠ [] := by
    dsimp only
    exact bootFree_ne_nil hroom
  exact ⟨kinit_eq, kinfo_leaks_page kinit_pageInv hfree⟩

end Ownership

end Xv6.Mem
