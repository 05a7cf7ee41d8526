import Mathlib
import Xv6.Mem.Runs

/-! # Copying a C string in from user space (`copyinstr`, `fetchstr`)

    `copyinstr` copies the string at user address `srcva` a page at a time:
    it finds the page through `walkaddr`, copies up to the page's end or
    `max` bytes, and stops at the first NUL, which it copies too.  Page
    contents are the physical bytes `mem`, which the rest of the memory
    model leaves out.

    What it is for is `userStr`: the bytes of the C string at an address,
    read one byte at a time through the page table, when all of them and
    their NUL can be read within `max` bytes.

    * `copyinstrPage_spec`: the inner loop over one page either meets the
      NUL or copies all its bytes, as `userStr` reads them;
    * `copyinstrLoop_spec`: the outer loop copies the string and its NUL
      when `userStr` finds it, and fails when it does not;
    * `fetchstr_spec`: `fetchstr` returns the length of that string and
      leaves it in the buffer, or fails;
    * `fetchstr_below_sz`: in every reachable state of the memory system,
      the string a live process hands the kernel lies below
      `PGROUNDUP(p->sz)`, and it and its NUL fit in the `max` bytes of the
      buffer. -/

namespace Xv6.Mem

/-! ## The code -/

/-- The inner loop of `copyinstr`: at most `n` bytes from physical address
    `p`, each stored at `dst`; whether it met the NUL, what is left of
    `max`, and the bytes stored so far. -/
def copyinstrPage (mem : Nat → UInt8) : Nat → Nat → Nat → List UInt8 → Bool × Nat × List UInt8
  | 0, _, max, dst => (false, max, dst)
  | n + 1, p, max, dst =>
      if mem p = 0 then (true, max, dst ++ [0])
      else copyinstrPage mem n (p + 1) (max - 1) (dst ++ [mem p])

/-- The outer loop of `copyinstr`, a page a round while
    `got_null == 0 && max > 0`. -/
def copyinstrLoop (pt : PageTable) (mem : Nat → UInt8) : Nat → Nat → Nat → List UInt8 → Int × List UInt8
  | 0, _, _, dst => (-1, dst)
  | fuel + 1, srcva, max, dst =>
      if max = 0 then (-1, dst)
      else
        let va0 := PGROUNDDOWN srcva
        let pa0 := walkaddr pt va0
        if pa0 = 0 then (-1, dst)
        else
          let r := copyinstrPage mem (min (PGSIZE - (srcva - va0)) max) (pa0 + (srcva - va0)) max dst
          if r.1 then (0, r.2.2) else copyinstrLoop pt mem fuel (va0 + PGSIZE) r.2.1 r.2.2

/-- `copyinstr(pagetable, dst, srcva, max)`: what it returns, and the bytes
    it stores at `dst`.  Each round copies a byte at least, so `max + 1`
    rounds reach the end. -/
def copyinstr (pt : PageTable) (mem : Nat → UInt8) (srcva max : Nat) : Int × List UInt8 :=
  copyinstrLoop pt mem (max + 1) srcva max []

/-- `strlen(s)` of `string.c`: the bytes before the first NUL. -/
def strlen (s : List UInt8) : Nat := (s.takeWhile (· ≠ 0)).length

/-- `fetchstr(addr, buf, max)` in a process with page table `pt`: what it
    returns, and the bytes it leaves in `buf`.  The callers pass a positive
    `max`, which `copyinstr` takes as a `uint64`. -/
def fetchstr (pt : PageTable) (mem : Nat → UInt8) (addr max : Nat) : Int × List UInt8 :=
  let r := copyinstr pt mem addr max
  if r.1 < 0 then (-1, r.2) else (strlen r.2, r.2)

/-! ## The string in user memory -/

/-- The byte at user address `va`, read through the page `walkaddr` finds
    for it; `none` where there is none. -/
def userByte (pt : PageTable) (mem : Nat → UInt8) (va : Nat) : Option UInt8 :=
  if walkaddr pt (PGROUNDDOWN va) = 0 then none
  else some (mem (walkaddr pt (PGROUNDDOWN va) + (va - PGROUNDDOWN va)))

/-- The C string at user address `va`, within `max` bytes: its bytes
    before the NUL, when they and the NUL can be read and the NUL comes
    within `max` bytes. -/
def userStr (pt : PageTable) (mem : Nat → UInt8) : Nat → Nat → Option (List UInt8)
  | 0, _ => none
  | max + 1, va =>
      match userByte pt mem va with
      | none => none
      | some b => if b = 0 then some [] else (userStr pt mem max (va + 1)).map (b :: ·)

section Spec

variable {pt : PageTable} {mem : Nat → UInt8}

/-- A string `userStr` finds has no NUL, and its NUL is read right after
    it, within `max` bytes. -/
theorem userStr_ends : ∀ {max va : Nat} {s : List UInt8}, userStr pt mem max va = some s →
    0 ∉ s ∧ userByte pt mem (va + s.length) = some 0 ∧ s.length < max
  | 0, _, _, h => by cases h
  | max + 1, va, s, h => by
    unfold userStr at h
    split at h
    · cases h
    · next b hb =>
      split_ifs at h with h0
      · -- the NUL itself: the empty string
        cases h
        subst h0
        exact ⟨List.not_mem_nil, hb, by simp⟩
      · -- a byte of the string, then the string from the next address
        obtain ⟨t, ht, rfl⟩ := Option.map_eq_some_iff.mp h
        obtain ⟨hnot, hnul, hlen⟩ := userStr_ends ht
        rw [List.length_cons, show va + (t.length + 1) = va + 1 + t.length by omega]
        simp only [List.mem_cons, not_or]
        exact ⟨⟨Ne.symm h0, hnot⟩, hnul, by omega⟩

/-- An address lies less than a page past the start of its page. -/
theorem offset_lt_PGSIZE (a : Nat) : a - PGROUNDDOWN a < PGSIZE := by
  unfold PGROUNDDOWN PGSIZE
  omega

/-- The bytes of one page are read where its frame holds them. -/
theorem userByte_of_page {srcva i : Nat} (hpa : walkaddr pt (PGROUNDDOWN srcva) ≠ 0)
    (hi : srcva - PGROUNDDOWN srcva + i < PGSIZE) :
    userByte pt mem (srcva + i) =
      some (mem (walkaddr pt (PGROUNDDOWN srcva) + (srcva - PGROUNDDOWN srcva) + i)) := by
  have hpage : PGROUNDDOWN (srcva + i) = PGROUNDDOWN srcva := by
    unfold PGROUNDDOWN at *
    unfold PGSIZE at *
    omega
  have hle : PGROUNDDOWN srcva ≤ srcva := Nat.div_mul_le_self srcva PGSIZE
  rw [userByte, hpage, if_neg hpa, Nat.add_assoc]
  congr 3
  omega

/-- **ONE PAGE**: over `n ≤ max` bytes that `userByte` reads where the loop
    reads them, the inner loop meets the NUL and has copied the string, or
    copies all `n` bytes, which begin the string. -/
theorem copyinstrPage_spec :
    ∀ (n p max : Nat) (dst : List UInt8) (va : Nat), n ≤ max →
      (∀ i < n, userByte pt mem (va + i) = some (mem (p + i))) →
      ((copyinstrPage mem n p max dst).1 = true ∧
          ∃ s, userStr pt mem max va = some s ∧ (copyinstrPage mem n p max dst).2.2 = dst ++ s ++ [0]) ∨
        ((copyinstrPage mem n p max dst).1 = false ∧ (copyinstrPage mem n p max dst).2.1 = max - n ∧
          ∃ bs : List UInt8, bs.length = n ∧ (copyinstrPage mem n p max dst).2.2 = dst ++ bs ∧
            userStr pt mem max va = (userStr pt mem (max - n) (va + n)).map (bs ++ ·))
  | 0, p, max, dst, va, _, _ => .inr ⟨rfl, rfl, [], rfl, by simp [copyinstrPage], by simp⟩
  | n + 1, p, max, dst, va, hn, hread => by
    obtain ⟨max, rfl⟩ : ∃ m, max = m + 1 := ⟨max - 1, by omega⟩
    have h0 : userByte pt mem va = some (mem p) := by simpa using hread 0 (by omega)
    by_cases hb : mem p = 0
    · -- the NUL: the string ends here
      have hpage : copyinstrPage mem (n + 1) p (max + 1) dst = (true, max + 1, dst ++ [0]) := by
        simp only [copyinstrPage, if_pos hb]
      rw [hpage]
      refine .inl ⟨rfl, [], ?_, by simp⟩
      simp [userStr, h0, hb]
    · -- a byte of the string: the rest from the next address on
      have hrest : ∀ i < n, userByte pt mem (va + 1 + i) = some (mem (p + 1 + i)) := fun i hi => by
        rw [Nat.add_assoc, Nat.add_assoc, Nat.add_comm 1 i]
        exact hread (i + 1) (by omega)
      have hstr : userStr pt mem (max + 1) va = (userStr pt mem max (va + 1)).map (mem p :: ·) := by
        simp [userStr, h0, hb]
      simp only [copyinstrPage, if_neg hb, Nat.add_sub_cancel]
      rcases copyinstrPage_spec n (p + 1) max (dst ++ [mem p]) (va + 1) (by omega) hrest with
        ⟨hgot, s, hs, hdst⟩ | ⟨hgot, hmax, bs, hlen, hdst, hs⟩
      · refine .inl ⟨hgot, mem p :: s, by rw [hstr, hs]; rfl, by rw [hdst]; simp⟩
      · refine .inr ⟨hgot, by rw [hmax]; omega, mem p :: bs, by simp [hlen], by rw [hdst]; simp, ?_⟩
        rw [hstr, hs, Option.map_map, show max + 1 - (n + 1) = max - n by omega,
          show va + 1 + n = va + (n + 1) by omega]
        rfl

/-- One round of the outer loop on a page that translates: copy up to the
    page's end or `max`, then stop at the NUL or go on from the next page. -/
theorem copyinstrLoop_round {fuel srcva max : Nat} {dst : List UInt8} (hmax : max ≠ 0)
    (hpa : walkaddr pt (PGROUNDDOWN srcva) ≠ 0) :
    copyinstrLoop pt mem (fuel + 1) srcva max dst =
      let r := copyinstrPage mem (min (PGSIZE - (srcva - PGROUNDDOWN srcva)) max)
        (walkaddr pt (PGROUNDDOWN srcva) + (srcva - PGROUNDDOWN srcva)) max dst
      if r.1 then (0, r.2.2) else copyinstrLoop pt mem fuel (PGROUNDDOWN srcva + PGSIZE) r.2.1 r.2.2 := by
  simp only [copyinstrLoop, if_neg hmax, if_neg hpa]

/-- After a round that copied `n` bytes without a NUL, the next page starts
    where the string goes on, or nothing of `max` is left. -/
theorem userStr_page_end {srcva max : Nat} :
    let n := min (PGSIZE - (srcva - PGROUNDDOWN srcva)) max
    userStr pt mem (max - n) (PGROUNDDOWN srcva + PGSIZE) = userStr pt mem (max - n) (srcva + n) := by
  intro n
  by_cases hfull : n = PGSIZE - (srcva - PGROUNDDOWN srcva)
  · -- the round ran to the page's end
    have hle : PGROUNDDOWN srcva ≤ srcva := Nat.div_mul_le_self srcva PGSIZE
    have hoff := offset_lt_PGSIZE srcva
    rw [hfull]
    congr 1
    omega
  · -- the round used up `max`
    rw [show max - n = 0 by omega]
    rfl

/-- **COPYINSTR**: on enough rounds, the loop from `srcva` with `max` bytes
    left copies the string and its NUL after what it holds when `userStr`
    finds the string, and returns `-1` when it does not. -/
theorem copyinstrLoop_spec :
    ∀ (fuel srcva max : Nat) (dst : List UInt8), max < fuel →
      (∃ s, userStr pt mem max srcva = some s ∧ copyinstrLoop pt mem fuel srcva max dst = (0, dst ++ s ++ [0])) ∨
        (userStr pt mem max srcva = none ∧ (copyinstrLoop pt mem fuel srcva max dst).1 = -1)
  | 0, _, _, _, h => absurd h (Nat.not_lt_zero _)
  | fuel + 1, srcva, max, dst, h => by
    by_cases hmax : max = 0
    · subst hmax
      exact .inr ⟨rfl, by simp [copyinstrLoop]⟩
    by_cases hpa : walkaddr pt (PGROUNDDOWN srcva) = 0
    · -- no page: the first byte cannot be read
      obtain ⟨m, rfl⟩ : ∃ m, max = m + 1 := ⟨max - 1, by omega⟩
      have hnone : userByte pt mem srcva = none := by simp [userByte, hpa]
      refine .inr ⟨by simp [userStr, hnone], ?_⟩
      simp [copyinstrLoop, hpa]
    have hoff := offset_lt_PGSIZE srcva
    -- the bytes of the page up to its end or `max`
    have hread : ∀ i < min (PGSIZE - (srcva - PGROUNDDOWN srcva)) max,
        userByte pt mem (srcva + i) =
          some (mem (walkaddr pt (PGROUNDDOWN srcva) + (srcva - PGROUNDDOWN srcva) + i)) :=
      fun i hi => userByte_of_page hpa (by omega)
    rw [copyinstrLoop_round hmax hpa]
    rcases copyinstrPage_spec _ _ max dst srcva (Nat.min_le_right _ _) hread with
      ⟨hgot, s, hs, hdst⟩ | ⟨hgot, hleft, bs, hlen, hdst, hs⟩
    · exact .inl ⟨s, hs, by simp only [hgot, if_true, hdst]⟩
    · simp only [hgot, Bool.false_eq_true, if_false, hleft, hdst]
      -- the next round reads on from the next page
      have hnext := @userStr_page_end pt mem srcva max
      rcases copyinstrLoop_spec fuel (PGROUNDDOWN srcva + PGSIZE)
          (max - min (PGSIZE - (srcva - PGROUNDDOWN srcva)) max) (dst ++ bs) (by omega) with
        ⟨s, hs', hrun⟩ | ⟨hs', hrun⟩
      · refine .inl ⟨bs ++ s, by rw [hs, ← hnext, hs']; rfl, by rw [hrun]; simp⟩
      · exact .inr ⟨by rw [hs, ← hnext, hs']; rfl, hrun⟩

/-- `strlen` of a string and its NUL is the string's length. -/
theorem strlen_append_zero {s : List UInt8} (hs : 0 ∉ s) : strlen (s ++ [0]) = s.length := by
  unfold strlen
  rw [List.takeWhile_append_of_pos (fun b hb => by simpa using ne_of_mem_of_not_mem hb hs)]
  simp

/-- `fetchstr` of a string `userStr` finds. -/
theorem fetchstr_of_userStr {addr max : Nat} {s : List UInt8} (hs : userStr pt mem max addr = some s) :
    fetchstr pt mem addr max = ((s.length : Int), s ++ [0]) := by
  rcases @copyinstrLoop_spec pt mem (max + 1) addr max [] (Nat.lt_succ_self _) with
    ⟨s', hs', hrun⟩ | ⟨hs', _⟩
  · obtain rfl : s' = s := Option.some.inj (hs'.symm.trans hs)
    have hcopy : copyinstr pt mem addr max = (0, s' ++ [0]) := by rw [copyinstr, hrun, List.nil_append]
    simp only [fetchstr, hcopy, lt_self_iff_false, if_false, strlen_append_zero (userStr_ends hs).1]
  · rw [hs] at hs'
    cases hs'

/-- `fetchstr` fails where `userStr` finds no string. -/
theorem fetchstr_of_userStr_none {addr max : Nat} (hs : userStr pt mem max addr = none) :
    (fetchstr pt mem addr max).1 = -1 := by
  rcases @copyinstrLoop_spec pt mem (max + 1) addr max [] (Nat.lt_succ_self _) with
    ⟨s, hs', _⟩ | ⟨_, hrun⟩
  · rw [hs] at hs'
    cases hs'
  · have hcopy : (copyinstr pt mem addr max).1 = -1 := hrun
    simp only [fetchstr, hcopy]
    rfl

end Spec

/-- **FETCHSTR**: `fetchstr(addr, buf, max)` returns the length of the C
    string at user address `addr` and leaves it with its NUL in `buf`
    exactly when every byte of it and the NUL can be read through the page
    table within `max` bytes; otherwise it returns `-1`. -/
theorem fetchstr_spec (pt : PageTable) (mem : Nat → UInt8) (addr max : Nat) :
    (∃ s, userStr pt mem max addr = some s ∧ fetchstr pt mem addr max = ((s.length : Int), s ++ [0])) ∨
      (userStr pt mem max addr = none ∧ (fetchstr pt mem addr max).1 = -1) := by
  cases hs : userStr pt mem max addr with
  | none => exact .inr ⟨rfl, fetchstr_of_userStr_none hs⟩
  | some s => exact .inl ⟨s, rfl, fetchstr_of_userStr hs⟩

/-! ## In a running system -/

/-- `walkaddr` refuses a page whose leaf lacks `PTE_U`. -/
theorem walkaddr_of_kernel_leaf {pt : PageTable} {va : Nat} {pte : Pte}
    (hl : pt.leaf (PGROUNDDOWN va) = some pte) (hu : pte.perm.u = false) : walkaddr pt va = 0 := by
  unfold walkaddr PageTable.lookup
  split_ifs <;> simp [hl, hu]

section Running

open Machine StateExcept

variable {kend trampoline : Nat} {s : MemSys} {p : Fin NPROC}

/-- Only pages below `PGROUNDUP(p->sz)` translate for a live process: past
    it up to the trapframe there are no leaves, the trapframe and the
    trampoline lack `PTE_U`, and `walkaddr` refuses addresses from `MAXVA`
    on. -/
theorem lt_sz_of_walkaddr (hs : SysInv kend trampoline s) (hp : (s.procs p).used) {va : Nat}
    (hva : walkaddr (s.table p) (PGROUNDDOWN va) ≠ 0) : va < PGROUNDUP (s.procs p).sz := by
  have hshape := (hs.proc p hp).shape
  have hdown : PGROUNDDOWN (PGROUNDDOWN va) = PGROUNDDOWN va := PGROUNDDOWN_of_mod (PGROUNDDOWN_mod va)
  by_contra hlo
  rw [Nat.not_lt] at hlo
  by_cases htf : va < TRAPFRAME
  · exact hva (page_above hs hp hlo htf).1
  by_cases hmax : va < MAXVA
  · -- the page of `va` is the trapframe's or the trampoline's
    have htop : PGROUNDDOWN va = TRAPFRAME ∨ PGROUNDDOWN va = TRAMPOLINE := by
      rw [TRAPFRAME_eq] at htf ⊢
      rw [MAXVA_eq] at hmax
      rw [TRAMPOLINE_eq]
      unfold PGROUNDDOWN PGSIZE
      omega
    rcases htop with htop | htop
    · exact hva (walkaddr_of_kernel_leaf (by rw [hdown, htop]; exact hshape.trapframe) rfl)
    · exact hva (walkaddr_of_kernel_leaf (by rw [hdown, htop]; exact hshape.trampoline) rfl)
  · have habove : MAXVA ≤ PGROUNDDOWN va := by
      rw [MAXVA_eq] at hmax ⊢
      unfold PGROUNDDOWN PGSIZE
      omega
    exact hva (by rw [walkaddr, if_pos habove])

/-- **STRINGS BELOW THE SIZE**: in every reachable state, `fetchstr` for a
    live process either fails or returns a string whose bytes and NUL all
    lie below `PGROUNDUP(p->sz)` and fit, with the NUL, in the `max` bytes
    of the kernel's buffer: no string argument is read from the trapframe,
    the trampoline or past the process's memory. -/
theorem fetchstr_below_sz (hend : 0 < kend) (hreach : Reachable (memInit kend) (memStep kend trampoline) s)
    (hp : (s.procs p).used) (mem : Nat → UInt8) (addr max : Nat) :
    (fetchstr (s.table p) mem addr max).1 = -1 ∨
      ∃ str, fetchstr (s.table p) mem addr max = ((str.length : Int), str ++ [0]) ∧
        addr + str.length < PGROUNDUP (s.procs p).sz ∧ str.length < max := by
  cases hstr : userStr (s.table p) mem max addr with
  | none => exact .inl (fetchstr_of_userStr_none hstr)
  | some str =>
    obtain ⟨-, hnul, hlen⟩ := userStr_ends hstr
    -- the NUL is read, so its page translates
    have hva : walkaddr (s.table p) (PGROUNDDOWN (addr + str.length)) ≠ 0 := fun h0 => by
      simp [userByte, h0] at hnul
    exact .inr ⟨str, fetchstr_of_userStr hstr, lt_sz_of_walkaddr (sysInv_of_reachable hend hreach) hp hva, hlen⟩

/-- After `userinit`, the first process's strings, in a buffer of `MAXPATH`
    bytes, lie below its size. -/
theorem fetchstr_below_sz_after_userinit :
    ∃ s, Reachable (memInit smallEnd) (memStep smallEnd KERNBASE) s ∧ (s.procs proc0).used ∧
      ((fetchstr (s.table proc0) (fun _ => 0) 0 128).1 = -1 ∨
        ∃ str, fetchstr (s.table proc0) (fun _ => 0) 0 128 = ((str.length : Int), str ++ [0]) ∧
          0 + str.length < PGROUNDUP (s.procs proc0).sz ∧ str.length < 128) := by
  obtain ⟨⟨_, s⟩, hrun, hused⟩ := exists_of_checkOk
    (P := fun r : Unit × MemSys => (r.2.procs proc0).used = true)
    (e := (userinit smallEnd KERNBASE).run (memInit smallEnd)) (by decide)
  have hreach : Reachable (memInit smallEnd) (memStep smallEnd KERNBASE) s :=
    .step .userinit .init (by simp only [memStep, sysStep, hrun])
  exact ⟨s, hreach, hused, fetchstr_below_sz (by decide) hreach hused _ 0 128⟩

end Running

end Xv6.Mem
