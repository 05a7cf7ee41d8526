import Mathlib
import Xv6.Lib.Machine

/-! # Spin locks and the interrupt nesting of `spinlock.c`

    Every CPU runs kernel code that takes and gives back spin locks and
    calls `push_off`/`pop_off` around code that must not be interrupted.
    The machine has one step per call a CPU makes, and one per round of
    `acquire`'s spinning loop, so the CPUs interleave at the `amoswap` that
    takes a lock.  A CPU's interrupt state is `intr_get()` (`SSTATUS_SIE`)
    and the fields `noff` and `intena` of its `struct cpu`.

    The kernel's code keeps two rules, which are the guards of the steps: a
    bare `pop_off` matches an earlier bare `push_off` of the same CPU (a
    ghost count `pushes` records the unmatched ones), and `intr_on` is
    called only by code that holds nothing and has pushed nothing (the
    scheduler loop, `usertrap`).

    * `LockInv`: a lock is locked exactly when it names a CPU, and `noff`
      counts what the CPU holds, its spin and its bare `push_off`s; a CPU
      whose interrupts are on has `noff = 0`;
    * `lockStep_inv`, `lockInv_of_reachable`: every step keeps it;
    * `holding_intr_off`: a CPU that holds a lock or spins has interrupts
      off, so no interrupt handler runs on a CPU that holds a lock;
    * `lockStep_panic`: the two checks of `pop_off` never fail;
    * `spin_waits_on_other`: `acquire` never spins on a lock of its own CPU;
    * `push_pop_matched`: over any interleaving, a CPU whose `push_off`s
      and `pop_off`s return `noff` to `0` ends with interrupts as before. -/

namespace Xv6.Lock

open Machine

/-- `NCPU`. -/
def NCPU : Nat := 8

instance : NeZero NCPU := ⟨by decide⟩

/-- A CPU: `intr_get()`, `noff` and `intena`; the lock whose `acquire` loop
    it is in; and, as a ghost, its bare `push_off`s not yet matched. -/
structure Cpu (L : Type) where
  intr : Bool
  noff : Nat
  intena : Bool
  spinning : Option L
  pushes : Nat
deriving DecidableEq, Repr

/-- `struct spinlock`: `locked` and `cpu` (`none` for `0`). -/
structure Spinlock where
  locked : Bool
  cpu : Option (Fin NCPU)
deriving DecidableEq, Repr

/-- The CPUs and the locks, named by `L`. -/
structure LockSys (L : Type) where
  cpus : Fin NCPU → Cpu L
  locks : L → Spinlock

variable {L : Type}

/-- Change CPU `c`. -/
def LockSys.setCpu (s : LockSys L) (c : Fin NCPU) (x : Cpu L) : LockSys L :=
  { s with cpus := Function.update s.cpus c x }

@[simp] theorem LockSys.setCpu_cpus (s : LockSys L) (c : Fin NCPU) (x : Cpu L) :
    (s.setCpu c x).cpus = Function.update s.cpus c x := rfl

@[simp] theorem LockSys.setCpu_locks (s : LockSys L) (c : Fin NCPU) (x : Cpu L) :
    (s.setCpu c x).locks = s.locks := rfl

@[simp] theorem LockSys.setCpu_setCpu (s : LockSys L) (c : Fin NCPU) (x y : Cpu L) :
    (s.setCpu c x).setCpu c y = s.setCpu c y := by
  simp [LockSys.setCpu]

variable [DecidableEq L]

/-- Change lock `lk`. -/
def LockSys.setLock (s : LockSys L) (lk : L) (l : Spinlock) : LockSys L :=
  { s with locks := Function.update s.locks lk l }

@[simp] theorem LockSys.setLock_cpus (s : LockSys L) (lk : L) (l : Spinlock) :
    (s.setLock lk l).cpus = s.cpus := rfl

@[simp] theorem LockSys.setLock_locks (s : LockSys L) (lk : L) (l : Spinlock) :
    (s.setLock lk l).locks = Function.update s.locks lk l := rfl

/-! ## The code -/

/-- `holding(lk)` on CPU `c`. -/
def holding (s : LockSys L) (c : Fin NCPU) (lk : L) : Bool :=
  (s.locks lk).locked && (s.locks lk).cpu == some c

/-- `push_off()`. -/
def push_off (x : Cpu L) : Cpu L :=
  let old := x.intr
  { x with intr := false, intena := if x.noff = 0 then old else x.intena, noff := x.noff + 1 }

/-- `pop_off()`. -/
def pop_off (x : Cpu L) : Except String (Cpu L) :=
  if x.intr then throw "pop_off - interruptible"
  else if x.noff < 1 then throw "pop_off"
  else
    let noff := x.noff - 1
    pure { x with noff, intr := if noff = 0 ∧ x.intena = true then true else x.intr }

/-- `acquire(lk)` on CPU `c` up to its loop: `push_off`, the check of
    `holding`, and the CPU enters the loop. -/
def acquire (s : LockSys L) (c : Fin NCPU) (lk : L) : Except String (LockSys L) :=
  let s := s.setCpu c (push_off (s.cpus c))
  if holding s c lk then throw "acquire"
  else pure (s.setCpu c { s.cpus c with spinning := some lk })

/-- One round of `acquire`'s loop: the `amoswap` takes the lock if it is
    free, and then `lk->cpu = mycpu()`; `none` while the lock is taken. -/
def spin (s : LockSys L) (c : Fin NCPU) : Option (LockSys L) :=
  match (s.cpus c).spinning with
  | none => none
  | some lk =>
      if (s.locks lk).locked then none
      else some ((s.setLock lk ⟨true, some c⟩).setCpu c { s.cpus c with spinning := none })

/-- `release(lk)` on CPU `c`: the check of `holding`, `lk->cpu = 0`, the
    release of `locked`, `pop_off`.  (Another CPU may take the lock between
    the release and `pop_off`; neither reads the other's state there.) -/
def release (s : LockSys L) (c : Fin NCPU) (lk : L) : Except String (LockSys L) := do
  if !holding s c lk then throw "release"
  let s := s.setLock lk ⟨false, none⟩
  let x ← pop_off (s.cpus c)
  pure (s.setCpu c x)

/-- The calls of a CPU, and a round of its `acquire` loop. -/
inductive LockCall (L : Type) where
  | push_off (c : Fin NCPU)
  | pop_off (c : Fin NCPU)
  | acquire (c : Fin NCPU) (lk : L)
  | spin (c : Fin NCPU)
  | release (c : Fin NCPU) (lk : L)
  | intr_on (c : Fin NCPU)
  | intr_off (c : Fin NCPU)
deriving DecidableEq

/-- The CPU that makes a call. -/
def LockCall.cpu : LockCall L → Fin NCPU
  | .push_off c | .pop_off c | .acquire c _ | .spin c | .release c _ | .intr_on c | .intr_off c => c

/-- A call that returns moves; one that panics fails. -/
def ofExcept {σ : Type} : Except String σ → Outcome σ
  | .ok s => .next s
  | .error msg => .panic msg

/-- One step.  A CPU in `acquire`'s loop only spins; a bare `pop_off`
    matches a bare `push_off`; `intr_on` comes from code with `noff = 0`. -/
def lockStep (s : LockSys L) : LockCall L → Outcome (LockSys L)
  | .push_off c =>
      if (s.cpus c).spinning = none then
        .next (s.setCpu c { push_off (s.cpus c) with pushes := (s.cpus c).pushes + 1 })
      else .blocked
  | .pop_off c =>
      if (s.cpus c).spinning = none ∧ 0 < (s.cpus c).pushes then
        ofExcept ((pop_off (s.cpus c)).map fun x => s.setCpu c { x with pushes := x.pushes - 1 })
      else .blocked
  | .acquire c lk => if (s.cpus c).spinning = none then ofExcept (acquire s c lk) else .blocked
  | .spin c =>
      match spin s c with
      | some s' => .next s'
      | none => .blocked
  | .release c lk => if (s.cpus c).spinning = none then ofExcept (release s c lk) else .blocked
  | .intr_on c =>
      if (s.cpus c).spinning = none ∧ (s.cpus c).noff = 0 then
        .next (s.setCpu c { s.cpus c with intr := true })
      else .blocked
  | .intr_off c =>
      if (s.cpus c).spinning = none then .next (s.setCpu c { s.cpus c with intr := false })
      else .blocked

/-- At boot: interrupts off, nothing pushed, every lock as `initlock`
    leaves it. -/
def lockInit : LockSys L :=
  ⟨fun _ => ⟨false, 0, false, none, 0⟩, fun _ => ⟨false, none⟩⟩

/-! ## What each call does -/

section Specs

variable {s s' : LockSys L} {c : Fin NCPU}

omit [DecidableEq L] in
@[simp] theorem holding_setCpu (x : Cpu L) (c' : Fin NCPU) (lk : L) :
    holding (s.setCpu c x) c' lk = holding s c' lk := rfl

theorem ofExcept_eq_next {σ : Type} {e : Except String σ} {t : σ} :
    ofExcept e = .next t ↔ e = .ok t := by
  cases e <;> simp [ofExcept]

theorem ofExcept_eq_panic {σ : Type} {e : Except String σ} {msg : String} :
    ofExcept e = .panic msg ↔ e = .error msg := by
  cases e <;> simp [ofExcept]

omit [DecidableEq L] in
theorem pop_off_eq_ok {x y : Cpu L} :
    pop_off x = .ok y ↔ x.intr = false ∧ 1 ≤ x.noff ∧
      y = { x with
        noff := x.noff - 1
        intr := if x.noff - 1 = 0 ∧ x.intena = true then true else x.intr } := by
  unfold pop_off
  by_cases hi : x.intr = true
  · simp [hi, throw, throwThe, MonadExceptOf.throw]
  by_cases hn : x.noff < 1
  · simp [hi, hn, throw, throwThe, MonadExceptOf.throw]
  rw [if_neg hi, if_neg hn]
  constructor
  · intro h
    cases h
    exact ⟨Bool.eq_false_iff.mpr hi, by omega, rfl⟩
  · rintro ⟨-, -, rfl⟩
    rfl

omit [DecidableEq L] in
/-- With interrupts off and a push to pop, `pop_off` returns. -/
theorem pop_off_ok {x : Cpu L} (hi : x.intr = false) (hn : 1 ≤ x.noff) : ∃ y, pop_off x = .ok y :=
  ⟨_, pop_off_eq_ok.mpr ⟨hi, hn, rfl⟩⟩

theorem lockStep_push_off (h : lockStep s (.push_off c) = .next s') :
    (s.cpus c).spinning = none ∧
      s' = s.setCpu c { push_off (s.cpus c) with pushes := (s.cpus c).pushes + 1 } := by
  simp only [lockStep] at h
  split at h
  · next hsp =>
      cases h
      exact ⟨hsp, rfl⟩
  · cases h

theorem lockStep_pop_off (h : lockStep s (.pop_off c) = .next s') :
    (s.cpus c).spinning = none ∧ 0 < (s.cpus c).pushes ∧ (s.cpus c).intr = false ∧
      1 ≤ (s.cpus c).noff ∧
      s' = s.setCpu c { s.cpus c with
        noff := (s.cpus c).noff - 1
        intr := if (s.cpus c).noff - 1 = 0 ∧ (s.cpus c).intena = true then true else (s.cpus c).intr
        pushes := (s.cpus c).pushes - 1 } := by
  simp only [lockStep] at h
  split at h
  · next hg =>
      rw [ofExcept_eq_next] at h
      cases hp : pop_off (s.cpus c) with
      | error msg =>
          rw [hp] at h
          cases h
      | ok y =>
          rw [hp] at h
          cases h
          obtain ⟨hi, hn, rfl⟩ := pop_off_eq_ok.mp hp
          exact ⟨hg.1, hg.2, hi, hn, rfl⟩
  · cases h

theorem lockStep_acquire {lk : L} (h : lockStep s (.acquire c lk) = .next s') :
    (s.cpus c).spinning = none ∧ holding s c lk = false ∧
      s' = s.setCpu c { push_off (s.cpus c) with spinning := some lk } := by
  simp only [lockStep] at h
  split at h
  · next hsp =>
      rw [ofExcept_eq_next, acquire] at h
      by_cases hh : holding s c lk = true
      · simp [hh, throw, throwThe, MonadExceptOf.throw] at h
      · simp only [holding_setCpu, hh] at h
        cases h
        refine ⟨hsp, by simpa using hh, ?_⟩
        simp only [LockSys.setCpu_setCpu, LockSys.setCpu_cpus, Function.update_self]
  · cases h

theorem lockStep_spin (h : lockStep s (.spin c) = .next s') :
    ∃ lk, (s.cpus c).spinning = some lk ∧ (s.locks lk).locked = false ∧
      s' = (s.setLock lk ⟨true, some c⟩).setCpu c { s.cpus c with spinning := none } := by
  simp only [lockStep] at h
  cases hs : spin s c with
  | none =>
      rw [hs] at h
      cases h
  | some t =>
      rw [hs] at h
      cases h
      unfold spin at hs
      cases hlk : (s.cpus c).spinning with
      | none => simp [hlk] at hs
      | some lk =>
          by_cases hl : (s.locks lk).locked = true
          · simp [hlk, hl] at hs
          · simp only [hlk, hl, if_false, Bool.false_eq_true, Option.some.injEq] at hs
            exact ⟨lk, rfl, by simpa using hl, hs.symm⟩

theorem lockStep_release {lk : L} (h : lockStep s (.release c lk) = .next s') :
    (s.cpus c).spinning = none ∧ holding s c lk = true ∧ (s.cpus c).intr = false ∧
      1 ≤ (s.cpus c).noff ∧
      s' = (s.setLock lk ⟨false, none⟩).setCpu c { s.cpus c with
        noff := (s.cpus c).noff - 1
        intr := if (s.cpus c).noff - 1 = 0 ∧ (s.cpus c).intena = true then true
          else (s.cpus c).intr } := by
  simp only [lockStep] at h
  split at h
  · next hsp =>
      rw [ofExcept_eq_next, release] at h
      by_cases hh : holding s c lk = true
      · simp only [hh, Bool.not_true, Bool.false_eq_true, if_false,
          LockSys.setLock_cpus] at h
        obtain ⟨y, hp, hy⟩ : ∃ y, pop_off (s.cpus c) = .ok y ∧
            .ok ((s.setLock lk ⟨false, none⟩).setCpu c y) = (Except.ok s' : Except String _) := by
          cases hp : pop_off (s.cpus c) with
          | error msg =>
              rw [hp] at h
              cases h
          | ok y => exact ⟨y, rfl, by rw [hp] at h; exact h⟩
        cases hy
        obtain ⟨hi, hn, rfl⟩ := pop_off_eq_ok.mp hp
        exact ⟨hsp, hh, hi, hn, rfl⟩
      · simp only [hh, Bool.not_false, if_true] at h
        cases h
  · cases h

theorem lockStep_intr_on (h : lockStep s (.intr_on c) = .next s') :
    (s.cpus c).spinning = none ∧ (s.cpus c).noff = 0 ∧
      s' = s.setCpu c { s.cpus c with intr := true } := by
  simp only [lockStep] at h
  split at h
  · next hg =>
      cases h
      exact ⟨hg.1, hg.2, rfl⟩
  · cases h

theorem lockStep_intr_off (h : lockStep s (.intr_off c) = .next s') :
    s' = s.setCpu c { s.cpus c with intr := false } := by
  simp only [lockStep] at h
  split at h
  · cases h
    rfl
  · cases h

end Specs

/-! ## The invariant -/

section Inv

variable [Fintype L]

/-- How many locks name CPU `c` as their holder. -/
def heldCount (s : LockSys L) (c : Fin NCPU) : Nat :=
  ∑ lk, if (s.locks lk).cpu = some c then 1 else 0

omit [DecidableEq L] in
@[simp] theorem heldCount_setCpu (s : LockSys L) (c c' : Fin NCPU) (x : Cpu L) :
    heldCount (s.setCpu c x) c' = heldCount s c' := rfl

/-- The count after lock `lk` changes. -/
theorem heldCount_setLock (s : LockSys L) (lk : L) (l : Spinlock) (c : Fin NCPU) :
    heldCount (s.setLock lk l) c + (if (s.locks lk).cpu = some c then 1 else 0) =
      heldCount s c + (if l.cpu = some c then 1 else 0) :=
  sum_update_add (fun l : Spinlock => if l.cpu = some c then 1 else 0) s.locks lk l

/-- A lock that is no one's, or stays another's, keeps the count of `c`. -/
theorem heldCount_setLock_of_ne (s : LockSys L) {lk : L} {l : Spinlock} {c : Fin NCPU}
    (hold : (s.locks lk).cpu ≠ some c) (hnew : l.cpu ≠ some c) :
    heldCount (s.setLock lk l) c = heldCount s c := by
  have h := heldCount_setLock s lk l c
  rw [if_neg hold, if_neg hnew] at h
  exact h

omit [DecidableEq L] in
theorem heldCount_pos {s : LockSys L} {c : Fin NCPU} {lk : L} (h : (s.locks lk).cpu = some c) :
    0 < heldCount s c :=
  Finset.sum_pos' (fun _ _ => Nat.zero_le _) ⟨lk, Finset.mem_univ _, by simp [h]⟩

/-- What holds of CPU `c`: `noff` counts the locks it holds, its spin and
    its bare `push_off`s; its interrupts are on only with `noff = 0`; it
    never spins on a lock it holds. -/
structure CpuInv (s : LockSys L) (c : Fin NCPU) : Prop where
  noff : (s.cpus c).noff = heldCount s c + ((s.cpus c).spinning.isSome).toNat + (s.cpus c).pushes
  intr : (s.cpus c).intr = true → (s.cpus c).noff = 0
  spin : ∀ lk, (s.cpus c).spinning = some lk → (s.locks lk).cpu ≠ some c

/-- **The invariant of the locks**: a lock is locked exactly when it names
    a CPU, and every CPU keeps `CpuInv`. -/
structure LockInv (s : LockSys L) : Prop where
  locked : ∀ lk, (s.locks lk).locked = (s.locks lk).cpu.isSome
  cpu : ∀ c, CpuInv s c

variable {s : LockSys L}

omit [DecidableEq L] in
theorem LockInv.holding_iff (hs : LockInv s) {c : Fin NCPU} {lk : L} :
    holding s c lk = true ↔ (s.locks lk).cpu = some c := by
  unfold holding
  rw [hs.locked lk]
  cases (s.locks lk).cpu <;> simp

omit [DecidableEq L] in
/-- A CPU that another step leaves alone keeps `CpuInv`, when its count
    stays and no lock it spins on becomes its own. -/
theorem CpuInv.frame {s' : LockSys L} {c : Fin NCPU} (h : CpuInv s c) (hcpu : s'.cpus c = s.cpus c)
    (hcount : heldCount s' c = heldCount s c)
    (hspin : ∀ lk, (s.cpus c).spinning = some lk → (s'.locks lk).cpu ≠ some c) : CpuInv s' c where
  noff := by rw [hcpu, hcount]; exact h.noff
  intr := by rw [hcpu]; exact h.intr
  spin := by rw [hcpu]; exact hspin

omit [DecidableEq L] in
/-- After a change of CPU `c` alone, the invariant holds when `c` keeps its
    part. -/
theorem LockInv.setCpu (hs : LockInv s) {c : Fin NCPU} {x : Cpu L} (hc : CpuInv (s.setCpu c x) c) :
    LockInv (s.setCpu c x) where
  locked := hs.locked
  cpu c' := by
    by_cases hc' : c' = c
    · subst hc'
      exact hc
    · exact (hs.cpu c').frame (by simp [Function.update_of_ne hc']) rfl
        fun lk hlk => (hs.cpu c').spin lk hlk

omit [DecidableEq L] in
/-- `CpuInv` of the CPU a step changed, from its new fields. -/
theorem cpuInv_setCpu {c : Fin NCPU} {x : Cpu L}
    (hnoff : x.noff = heldCount s c + (x.spinning.isSome).toNat + x.pushes)
    (hintr : x.intr = true → x.noff = 0) (hspin : ∀ lk, x.spinning = some lk → (s.locks lk).cpu ≠ some c) :
    CpuInv (s.setCpu c x) c where
  noff := by simpa using hnoff
  intr := by simpa using hintr
  spin := by simpa using hspin

/-- **STEP**: every step that moves keeps the invariant. -/
theorem lockStep_inv (hs : LockInv s) {a : LockCall L} {s' : LockSys L}
    (h : lockStep s a = .next s') : LockInv s' := by
  cases a with
  | push_off c =>
      obtain ⟨hsp, rfl⟩ := lockStep_push_off h
      have hc := hs.cpu c
      refine hs.setCpu (cpuInv_setCpu ?_ (fun h => by simp [push_off] at h) (fun _ h => ?_))
      · simp only [push_off, hsp]
        rw [hc.noff, hsp]
        simp
        omega
      · simp [push_off, hsp] at h
  | pop_off c =>
      obtain ⟨hsp, hpush, hi, hn, rfl⟩ := lockStep_pop_off h
      have hc := hs.cpu c
      refine hs.setCpu (cpuInv_setCpu ?_ (fun h => ?_) (fun _ h => ?_))
      · have hnoff := hc.noff
        rw [hsp] at hnoff
        dsimp only
        rw [hsp]
        simp only [Option.isSome_none, Bool.toNat_false] at hnoff ⊢
        omega
      · -- interrupts come back on only when `noff` reaches `0`
        dsimp only at h ⊢
        split at h
        · next hz => exact hz.1
        · rw [hi] at h
          cases h
      · simp [hsp] at h
  | acquire c lk =>
      obtain ⟨hsp, hh, rfl⟩ := lockStep_acquire h
      have hc := hs.cpu c
      refine hs.setCpu (cpuInv_setCpu ?_ (fun h => by simp [push_off] at h) (fun lk' h => ?_))
      · simp only [push_off]
        rw [hc.noff, hsp]
        simp
        omega
      · -- `holding` was false, so the lock is not `c`'s
        simp only [Option.some.injEq] at h
        subst h
        intro hcpu
        rw [← hs.holding_iff] at hcpu
        rw [hcpu] at hh
        cases hh
  | spin c =>
      obtain ⟨lk, hsp, hl, rfl⟩ := lockStep_spin h
      -- a free lock names no CPU, and now names `c`
      have hfree : (s.locks lk).cpu = none := by
        have := hs.locked lk
        rw [hl] at this
        exact Option.not_isSome_iff_eq_none.mp (by rw [← this]; simp)
      refine ⟨fun lk' => ?_, fun c' => ?_⟩
      · by_cases hlk : lk' = lk
        · subst hlk
          simp
        · simp [Function.update_of_ne hlk, hs.locked lk']
      by_cases hc' : c' = c
      · subst hc'
        have hc := hs.cpu c'
        have hcount := heldCount_setLock s lk ⟨true, some c'⟩ c'
        simp only [hfree, reduceCtorEq, if_false, if_true, add_zero] at hcount
        refine ⟨?_, ?_, fun _ h => by simp at h⟩
        · have hnoff := hc.noff
          rw [hsp] at hnoff
          simp only [LockSys.setCpu_cpus, Function.update_self, heldCount_setCpu]
          simp only [Option.isSome_some, Option.isSome_none, Bool.toNat_true, Bool.toNat_false]
            at hnoff ⊢
          omega
        · simp only [LockSys.setCpu_cpus, Function.update_self]
          exact hc.intr
      · have hother : (⟨true, some c⟩ : Spinlock).cpu ≠ some c' := by simp [Ne.symm hc']
        refine (hs.cpu c').frame (by simp [Function.update_of_ne hc'])
          (by rw [heldCount_setCpu, heldCount_setLock_of_ne s (by rw [hfree]; simp) hother])
          fun lk' hlk' => ?_
        by_cases hlk : lk' = lk
        · subst hlk
          simpa using hother
        · simpa [Function.update_of_ne hlk] using (hs.cpu c').spin lk' hlk'
  | release c lk =>
      obtain ⟨hsp, hh, hi, hn, rfl⟩ := lockStep_release h
      have hown := hs.holding_iff.mp hh
      refine ⟨fun lk' => ?_, fun c' => ?_⟩
      · by_cases hlk : lk' = lk
        · subst hlk
          simp
        · simp [Function.update_of_ne hlk, hs.locked lk']
      by_cases hc' : c' = c
      · subst hc'
        have hc := hs.cpu c'
        have hcount := heldCount_setLock s lk ⟨false, none⟩ c'
        simp only [hown, reduceCtorEq, if_false, if_true, add_zero] at hcount
        refine ⟨?_, fun h => ?_, fun _ h => by simp [hsp] at h⟩
        · simp only [LockSys.setCpu_cpus, Function.update_self, heldCount_setCpu, hsp]
          have := hc.noff
          rw [hsp] at this
          simp only [Option.isSome_none, Bool.toNat_false] at this ⊢
          omega
        · -- interrupts come back on only when `noff` reaches `0`
          simp only [LockSys.setCpu_cpus, Function.update_self] at h ⊢
          split at h
          · next hz => exact hz.1
          · rw [hi] at h
            cases h
      · have hold : (s.locks lk).cpu ≠ some c' := by
          rw [hown]
          simpa using Ne.symm hc'
        refine (hs.cpu c').frame (by simp [Function.update_of_ne hc'])
          (by rw [heldCount_setCpu, heldCount_setLock_of_ne s hold (by simp)])
          fun lk' hlk' => ?_
        by_cases hlk : lk' = lk
        · subst hlk
          simp
        · simpa [Function.update_of_ne hlk] using (hs.cpu c').spin lk' hlk'
  | intr_on c =>
      obtain ⟨hsp, hz, rfl⟩ := lockStep_intr_on h
      have hc := hs.cpu c
      exact hs.setCpu (cpuInv_setCpu hc.noff (fun _ => hz) hc.spin)
  | intr_off c =>
      obtain rfl := lockStep_intr_off h
      have hc := hs.cpu c
      exact hs.setCpu (cpuInv_setCpu hc.noff (fun h => by cases h) hc.spin)

omit [DecidableEq L] in
theorem lockInit_inv : LockInv (lockInit : LockSys L) where
  locked _ := rfl
  cpu _ := ⟨by simp [lockInit, heldCount], (fun h => by cases h), fun _ h => by cases h⟩

/-- **RUN**: every reachable state keeps the invariant. -/
theorem lockInv_of_reachable {s : LockSys L} (h : Reachable lockInit lockStep s) : LockInv s :=
  h.inv lockInit_inv fun _ _ _ hs hstep => lockStep_inv hs hstep

end Inv

/-! ## What every run keeps -/

section Safety

variable [Fintype L] {s : LockSys L}

omit [DecidableEq L] in
/-- A CPU that holds a lock, or has a bare `push_off` to match, can
    `pop_off`: its interrupts are off and `noff` is positive. -/
theorem CpuInv.pop_ready {c : Fin NCPU} (hc : CpuInv s c)
    (hpos : 0 < heldCount s c ∨ 0 < (s.cpus c).pushes) :
    (s.cpus c).intr = false ∧ 1 ≤ (s.cpus c).noff := by
  have hnoff := hc.noff
  have hn : 1 ≤ (s.cpus c).noff := by omega
  refine ⟨?_, hn⟩
  cases hi : (s.cpus c).intr
  · rfl
  · have := hc.intr hi
    omega

/-- **A CPU THAT HOLDS A LOCK HAS INTERRUPTS OFF**: in every reachable
    state, a CPU that holds a lock, or spins in `acquire`, has interrupts
    disabled and a `noff` no smaller than the number of locks it holds; so
    no interrupt handler starts on a CPU that holds a lock. -/
theorem holding_intr_off (hreach : Reachable lockInit lockStep s) (c : Fin NCPU)
    (hbusy : (∃ lk, holding s c lk = true) ∨ (s.cpus c).spinning ≠ none) :
    (s.cpus c).intr = false ∧ heldCount s c ≤ (s.cpus c).noff := by
  have hs := lockInv_of_reachable hreach
  have hnoff := (hs.cpu c).noff
  refine ⟨?_, by omega⟩
  -- `noff` counts the lock held or the spin, so it is positive
  have hpos : 0 < (s.cpus c).noff := by
    rcases hbusy with ⟨lk, hh⟩ | hsp
    · have := heldCount_pos (hs.holding_iff.mp hh)
      omega
    · obtain ⟨lk, hlk⟩ := Option.ne_none_iff_exists'.mp hsp
      rw [hlk] at hnoff
      simp only [Option.isSome_some, Bool.toNat_true] at hnoff
      omega
  cases hi : (s.cpus c).intr
  · rfl
  · have := (hs.cpu c).intr hi
    omega

/-- CPU `0` takes the one lock after turning interrupts on: they are off. -/
theorem holding_intr_off_after_acquire :
    ∃ s : LockSys Unit, Reachable lockInit lockStep s ∧ holding s 0 () = true ∧
      (s.cpus 0).intr = false ∧ heldCount s 0 ≤ (s.cpus 0).noff := by
  obtain ⟨s, hrun, hh⟩ : ∃ s, replay lockStep (lockInit : LockSys Unit)
      [.intr_on 0, .acquire 0 (), .spin 0] = some s ∧ holding s 0 () = true :=
    ⟨_, rfl, by decide⟩
  have hreach := replay_reachable .init hrun
  exact ⟨s, hreach, hh, holding_intr_off hreach 0 (.inl ⟨(), hh⟩)⟩

/-- **POP_OFF NEVER PANICS**: from a reachable state a step fails only in
    `acquire` of a lock its CPU holds, or in `release` of a lock it does not
    hold; the checks `pop_off - interruptible` and `pop_off` never fail. -/
theorem lockStep_panic (hreach : Reachable lockInit lockStep s) {a : LockCall L} {msg : String}
    (h : lockStep s a = .panic msg) :
    (∃ c lk, a = .acquire c lk ∧ holding s c lk = true ∧ msg = "acquire") ∨
      (∃ c lk, a = .release c lk ∧ holding s c lk = false ∧ msg = "release") := by
  have hs := lockInv_of_reachable hreach
  cases a with
  | pop_off c =>
      simp only [lockStep] at h
      split at h
      · next hg =>
          rw [ofExcept_eq_panic] at h
          obtain ⟨hi, hn⟩ := (hs.cpu c).pop_ready (.inr hg.2)
          obtain ⟨y, hp⟩ := pop_off_ok hi hn
          rw [hp] at h
          cases h
      · cases h
  | acquire c lk =>
      simp only [lockStep] at h
      split at h
      · rw [ofExcept_eq_panic, acquire] at h
        by_cases hh : holding s c lk = true
        · simp only [holding_setCpu, hh, if_true] at h
          exact .inl ⟨c, lk, rfl, hh, (Except.error.inj h).symm⟩
        · simp only [holding_setCpu, hh] at h
          cases h
      · cases h
  | release c lk =>
      simp only [lockStep] at h
      split at h
      · rw [ofExcept_eq_panic, release] at h
        by_cases hh : holding s c lk = true
        · -- the holder pops what `acquire` pushed
          obtain ⟨hi, hn⟩ := (hs.cpu c).pop_ready (.inl (heldCount_pos (hs.holding_iff.mp hh)))
          simp only [hh, Bool.not_true, Bool.false_eq_true, if_false, LockSys.setLock_cpus] at h
          obtain ⟨y, hp⟩ := pop_off_ok hi hn
          rw [hp] at h
          cases h
        · simp only [hh, Bool.not_false, if_true] at h
          exact .inr ⟨c, lk, rfl, by simpa using hh, (Except.error.inj h).symm⟩
      · cases h
  | push_off c =>
      simp only [lockStep] at h
      split at h <;> cases h
  | spin c =>
      simp only [lockStep] at h
      split at h <;> cases h
  | intr_on c =>
      simp only [lockStep] at h
      split at h <;> cases h
  | intr_off c =>
      simp only [lockStep] at h
      split at h <;> cases h

/-- A `release` of a lock no CPU holds fails at boot. -/
theorem release_unheld_panics :
    lockStep (lockInit : LockSys Unit) (.release 0 ()) = .panic "release" ∧
      ((∃ c lk, (LockCall.release 0 () : LockCall Unit) = .acquire c lk ∧
          holding lockInit c lk = true ∧ "release" = "acquire") ∨
        (∃ c lk, (LockCall.release 0 () : LockCall Unit) = .release c lk ∧
          holding lockInit c lk = false ∧ "release" = "release")) := by
  have h : lockStep (lockInit : LockSys Unit) (.release 0 ()) = .panic "release" := rfl
  exact ⟨h, lockStep_panic .init h⟩

/-- **ACQUIRE WAITS ONLY ON ANOTHER CPU**: in every reachable state, a CPU
    in `acquire`'s loop that cannot take its lock waits on a lock that
    another CPU holds, never on one of its own. -/
theorem spin_waits_on_other (hreach : Reachable lockInit lockStep s) {c : Fin NCPU} {lk : L}
    (hsp : (s.cpus c).spinning = some lk) (hb : lockStep s (.spin c) = .blocked) :
    ∃ c', c' ≠ c ∧ holding s c' lk = true := by
  have hs := lockInv_of_reachable hreach
  -- the spin moves whenever the lock is free
  have hl : (s.locks lk).locked = true := by
    by_contra hl
    simp only [lockStep, spin, hsp, hl, if_false] at hb
    cases hb
  obtain ⟨c', hc'⟩ := Option.isSome_iff_exists.mp (by rw [← hs.locked lk]; exact hl)
  refine ⟨c', fun heq => (hs.cpu c).spin lk hsp (heq ▸ hc'), hs.holding_iff.mpr hc'⟩

/-- CPU `1` spins on the lock CPU `0` took: it waits on CPU `0`. -/
theorem spin_waits_on_other_two_cpus :
    ∃ s : LockSys Unit, Reachable lockInit lockStep s ∧ (s.cpus 1).spinning = some () ∧
      lockStep s (.spin 1) = .blocked ∧ ∃ c', c' ≠ 1 ∧ holding s c' () = true := by
  obtain ⟨s, hrun, hsp, hb⟩ : ∃ s, replay lockStep (lockInit : LockSys Unit)
      [.acquire 0 (), .spin 0, .acquire 1 ()] = some s ∧ (s.cpus 1).spinning = some () ∧
        lockStep s (.spin 1) = .blocked :=
    ⟨_, rfl, by decide, rfl⟩
  have hreach := replay_reachable .init hrun
  exact ⟨s, hreach, hsp, hb, spin_waits_on_other hreach hsp hb⟩

end Safety

/-! ## Matched `push_off` and `pop_off` -/

section Matched

variable {s s' : LockSys L}

/-- A step changes no CPU but the one that makes it. -/
theorem lockStep_cpus_of_ne {a : LockCall L} (h : lockStep s a = .next s') {c : Fin NCPU}
    (hc : a.cpu ≠ c) : s'.cpus c = s.cpus c := by
  have hne : c ≠ a.cpu := Ne.symm hc
  cases a with
  | push_off c' =>
      obtain ⟨-, rfl⟩ := lockStep_push_off h
      exact Function.update_of_ne hne _ _
  | pop_off c' =>
      obtain ⟨-, -, -, -, rfl⟩ := lockStep_pop_off h
      exact Function.update_of_ne hne _ _
  | acquire c' lk =>
      obtain ⟨-, -, rfl⟩ := lockStep_acquire h
      exact Function.update_of_ne hne _ _
  | spin c' =>
      obtain ⟨lk, -, -, rfl⟩ := lockStep_spin h
      exact Function.update_of_ne hne _ _
  | release c' lk =>
      obtain ⟨-, -, -, -, rfl⟩ := lockStep_release h
      exact Function.update_of_ne hne _ _
  | intr_on c' =>
      obtain ⟨-, -, rfl⟩ := lockStep_intr_on h
      exact Function.update_of_ne hne _ _
  | intr_off c' =>
      obtain rfl := lockStep_intr_off h
      exact Function.update_of_ne hne _ _

/-- A CPU nested as the interrupt state `b` dictates: at `noff = 0` its
    interrupts are `b`, and inside a `push_off` `intena` keeps `b`. -/
def Nested (b : Bool) (x : Cpu L) : Prop :=
  (x.noff = 0 → x.intr = b) ∧ (0 < x.noff → x.intena = b)

omit [DecidableEq L] in
theorem nested_push_off {b : Bool} {x : Cpu L} (hb : Nested b x) : Nested b (push_off x) := by
  refine ⟨fun h => by simp [push_off] at h, fun _ => ?_⟩
  simp only [push_off]
  -- the outermost `push_off` saves the interrupt state
  by_cases hz : x.noff = 0
  · rw [if_pos hz]
    exact hb.1 hz
  · rw [if_neg hz]
    exact hb.2 (Nat.pos_of_ne_zero hz)

omit [DecidableEq L] in
theorem nested_pop_off {b : Bool} {x : Cpu L} (hb : Nested b x) (hi : x.intr = false)
    (hn : 1 ≤ x.noff) :
    Nested b { x with
      noff := x.noff - 1
      intr := if x.noff - 1 = 0 ∧ x.intena = true then true else x.intr } := by
  have hena := hb.2 (by omega)
  refine ⟨fun hz => ?_, fun hpos => hena⟩
  -- the outermost `pop_off` gives back what was saved
  dsimp only at hz ⊢
  cases b
  · rw [if_neg (by rw [hena]; simp), hi]
  · rw [if_pos ⟨hz, hena⟩]

/-- One step of any CPU but `intr_on` or `intr_off` by `c` keeps `c`
    nested. -/
theorem nested_step {b : Bool} {c : Fin NCPU} (hb : Nested b (s.cpus c)) {a : LockCall L}
    (h : lockStep s a = .next s') (hon : a ≠ .intr_on c) (hoff : a ≠ .intr_off c) :
    Nested b (s'.cpus c) := by
  by_cases hc : a.cpu = c
  swap
  · rw [lockStep_cpus_of_ne h hc]
    exact hb
  cases a with
  | push_off c' =>
      obtain rfl : c' = c := hc
      obtain ⟨-, rfl⟩ := lockStep_push_off h
      simp only [LockSys.setCpu_cpus, Function.update_self]
      exact nested_push_off hb
  | pop_off c' =>
      obtain rfl : c' = c := hc
      obtain ⟨-, -, hi, hn, rfl⟩ := lockStep_pop_off h
      simp only [LockSys.setCpu_cpus, Function.update_self]
      exact nested_pop_off hb hi hn
  | acquire c' lk =>
      obtain rfl : c' = c := hc
      obtain ⟨-, -, rfl⟩ := lockStep_acquire h
      simp only [LockSys.setCpu_cpus, Function.update_self]
      exact nested_push_off hb
  | spin c' =>
      obtain rfl : c' = c := hc
      obtain ⟨lk, -, -, rfl⟩ := lockStep_spin h
      simp only [LockSys.setCpu_cpus, Function.update_self]
      exact hb
  | release c' lk =>
      obtain rfl : c' = c := hc
      obtain ⟨-, -, hi, hn, rfl⟩ := lockStep_release h
      simp only [LockSys.setCpu_cpus, Function.update_self]
      exact nested_pop_off hb hi hn
  | intr_on c' =>
      obtain rfl : c' = c := hc
      exact absurd rfl hon
  | intr_off c' =>
      obtain rfl : c' = c := hc
      exact absurd rfl hoff

/-- **PUSH_OFF AND POP_OFF ARE MATCHED**: over any run of all CPUs from a
    state where CPU `c` has `noff = 0`, if `c` itself calls neither
    `intr_on` nor `intr_off`, then once its `noff` is `0` again its
    interrupts are as they were: two `pop_off`s undo two `push_off`s, and
    interrupts that were off stay off. -/
theorem push_pop_matched {as : List (LockCall L)} (c : Fin NCPU)
    (hrun : replay lockStep s as = some s') (hno : ∀ a ∈ as, a ≠ .intr_on c ∧ a ≠ .intr_off c)
    (h0 : (s.cpus c).noff = 0) (h0' : (s'.cpus c).noff = 0) :
    (s'.cpus c).intr = (s.cpus c).intr := by
  have hrun' := replay_inv (P := fun t => Nested (s.cpus c).intr (t.cpus c))
    (fun _ a _ ha hb hstep => nested_step hb hstep (hno a ha).1 (hno a ha).2)
    ⟨fun _ => rfl, fun hpos => absurd h0 (Nat.pos_iff_ne_zero.mp hpos)⟩ hrun
  exact hrun'.1 h0'

/-- From interrupts on, two CPUs take and give back the lock in turn: CPU
    `0` ends with interrupts on again. -/
theorem push_pop_matched_two_cpus :
    ∃ s' : LockSys Unit, replay lockStep ((lockInit : LockSys Unit).setCpu 0 ⟨true, 0, false, none, 0⟩)
        [.push_off 0, .acquire 0 (), .spin 0, .acquire 1 (), .release 0 (), .spin 1, .pop_off 0,
          .release 1 ()] = some s' ∧
      (s'.cpus 0).noff = 0 ∧ (s'.cpus 0).intr = true := by
  obtain ⟨s', hrun, h0'⟩ : ∃ s' : LockSys Unit, replay lockStep
      ((lockInit : LockSys Unit).setCpu 0 ⟨true, 0, false, none, 0⟩)
        [.push_off 0, .acquire 0 (), .spin 0, .acquire 1 (), .release 0 (), .spin 1, .pop_off 0,
          .release 1 ()] = some s' ∧ (s'.cpus 0).noff = 0 :=
    ⟨_, rfl, by decide⟩
  exact ⟨s', hrun, h0', push_pop_matched 0 hrun (by decide) rfl h0'⟩

end Matched

end Xv6.Lock
