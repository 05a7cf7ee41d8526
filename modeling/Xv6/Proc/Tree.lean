import Xv6.Mem.Proc
import Xv6.Lib.Machine

/-! # The process tree (`kernel/proc.c`)

    The fields of `struct proc` that make the tree of processes (`state`,
    `chan`, `killed`, `xstate`, `pid`, `parent`), with `nextpid` and
    `initproc`.  The calls run as the steps their locks cut them into:
    `kfork` is `allocproc` up to `release(&np->lock)`, then
    `np->parent = p` under `wait_lock`, then `np->state = RUNNABLE`;
    `kexit` from `acquire(&wait_lock)` to `p->state = ZOMBIE` is one step,
    and so is one pass of `kwait`'s loop.  What these calls do to memory,
    files and the cwd is in `Mem/Proc` and the file-system modules.

    * `Grafts`: the frame of every step that creates, ends or frees no
      process, with `reparent_grafts` and `reparent_orphans` for `kexit`;
    * `procStep_next`: what one step can do;
    * `proc_tree_reaped`: parents are live, zombies are childless and are
      freed only by their parent's `kwait`, whose pids never repeat;
    * `init_exits_when_killed`: `kill(1)` makes `initproc` exit, which
      panics with zombies left. -/

set_option linter.dupNamespace false

namespace Xv6.Proc

open Machine
open Xv6.Mem (NPROC)

/-- `enum procstate`. -/
inductive ProcState where
  | UNUSED | USED | SLEEPING | RUNNABLE | RUNNING | ZOMBIE
deriving DecidableEq, Repr

/-- The states of a process that runs or will run again. -/
def ProcState.alive : ProcState → Bool
  | .SLEEPING | .RUNNABLE | .RUNNING => true
  | _ => false

theorem ProcState.ne_unused_of_alive {st : ProcState} (h : st.alive) : st ≠ .UNUSED := by
  rintro rfl
  cases h

@[simp] theorem ProcState.alive_iff (st : ProcState) :
    st.alive = true ↔ st = .SLEEPING ∨ st = .RUNNABLE ∨ st = .RUNNING := by
  cases st <;> simp [ProcState.alive]

/-- A sleep channel: the `struct proc` that `kwait` sleeps on, or any other
    address. -/
inductive Chan where
  | proc (p : Fin NPROC)
  | other (a : Nat)
deriving DecidableEq, Repr

/-- The fields of `struct proc` that the tree reads and writes; `parent`
    is a slot of `proc[]`, `none` for a null pointer. -/
structure Proc where
  state : ProcState
  chan : Option Chan
  killed : Bool
  xstate : Int
  pid : Nat
  parent : Option (Fin NPROC)
deriving DecidableEq, Repr

/-- A slot as `procinit` and `freeproc` leave it. -/
def Proc.unused : Proc := ⟨.UNUSED, none, false, 0, 0, none⟩

/-- `proc[]`, `nextpid` and `initproc`. -/
structure PTable where
  proc : Fin NPROC → Proc
  nextpid : Nat
  initproc : Fin NPROC

namespace PTable

/-- The table with slot `p` changed by `f`. -/
def setProc (t : PTable) (p : Fin NPROC) (f : Proc → Proc) : PTable :=
  { t with proc := Function.update t.proc p (f (t.proc p)) }

/-- `freeproc(p)`. -/
def freeproc (t : PTable) (p : Fin NPROC) : PTable :=
  t.setProc p fun pr =>
    { pr with pid := 0, parent := none, chan := none, killed := false, xstate := 0,
              state := .UNUSED }

/-- `found:` in `allocproc`: `p->pid = allocpid(); p->state = USED;`. -/
def found (t : PTable) (p : Fin NPROC) : PTable :=
  { t with nextpid := t.nextpid + 1 }.setProc p fun pr => { pr with pid := t.nextpid, state := .USED }

/-- `allocproc()`: the first UNUSED slot; `ok` says whether its trapframe
    and page table can be allocated, and if not the slot is freed again,
    with its pid spent. -/
def allocproc (t : PTable) (ok : Bool) : Option (Fin NPROC) × PTable :=
  match (List.finRange NPROC).find? fun p => (t.proc p).state = .UNUSED with
  | none => (none, t)
  | some p => if ok then (some p, t.found p) else (none, (t.found p).freeproc p)

/-- `wakeup(chan)` called by `self` (`none` for an interrupt with no
    process): every other process asleep on `chan` becomes RUNNABLE. -/
def wakeup (t : PTable) (c : Chan) (self : Option (Fin NPROC)) : PTable :=
  { t with proc := fun p =>
      if some p ≠ self ∧ (t.proc p).state = .SLEEPING ∧ (t.proc p).chan = some c then
        { t.proc p with state := .RUNNABLE }
      else t.proc p }

/-- One pass of `reparent(p)`'s loop, at `pp`. -/
def reparentOne (p : Fin NPROC) (t : PTable) (pp : Fin NPROC) : PTable :=
  if (t.proc pp).parent = some p then
    (t.setProc pp fun pr => { pr with parent := some t.initproc }).wakeup (.proc t.initproc) (some p)
  else t

/-- `reparent(p)`: `p`'s children go to `initproc`, which is woken. -/
def reparent (t : PTable) (p : Fin NPROC) : PTable :=
  (List.finRange NPROC).foldl (reparentOne p) t

/-- The first step of `kfork()` by the running process: `allocproc`, and
    `uvmcopy`, which frees the child when it fails (`copyOk = false`). -/
def kforkAlloc (t : PTable) (allocOk copyOk : Bool) : Option (Fin NPROC) × PTable :=
  match t.allocproc allocOk with
  | (some np, t) => if copyOk then (some np, t) else (none, t.freeproc np)
  | (none, t) => (none, t)

/-- `np->parent = p;` under `wait_lock`, in `kfork`. -/
def kforkAdopt (t : PTable) (p np : Fin NPROC) : PTable :=
  t.setProc np fun pr => { pr with parent := some p }

/-- `np->state = RUNNABLE;`, the end of `kfork`. -/
def kforkStart (t : PTable) (np : Fin NPROC) : PTable :=
  t.setProc np fun pr => { pr with state := .RUNNABLE }

/-- `kexit(status)` by `p`, from the check on `initproc` to
    `p->state = ZOMBIE`; closing the files and the cwd in between does not
    touch the tree. -/
def kexit (t : PTable) (p : Fin NPROC) (status : Int) : Except String PTable :=
  if p = t.initproc then .error "init exiting"
  else
    let t := t.reparent p
    -- `wakeup(p->parent)`: a null parent is a channel no process sleeps on
    let t := match (t.proc p).parent with
      | some pp => t.wakeup (.proc pp) (some p)
      | none => t
    .ok (t.setProc p fun pr => { pr with xstate := status, state := .ZOMBIE })

/-- How one pass of `kwait`'s loop ends: it returns, or it sleeps. -/
inductive WaitStep where
  | ret (v : Int)
  | sleep
deriving DecidableEq, Repr

/-- One pass of `kwait(addr)`'s loop by `p`, under `wait_lock`: the first
    ZOMBIE child in table order is freed and its pid returned, unless the
    `copyout` of its `xstate` fails (`copyok = false`); with no zombie
    child, `-1` when `p` has no child or was killed, and otherwise
    `sleep(p, &wait_lock)`. -/
def kwait (t : PTable) (p : Fin NPROC) (copyok : Bool) : WaitStep × PTable :=
  let kids := (List.finRange NPROC).filter fun pp => (t.proc pp).parent = some p
  match kids.find? fun pp => (t.proc pp).state = .ZOMBIE with
  | some pp => if copyok then (.ret (t.proc pp).pid, t.freeproc pp) else (.ret (-1), t)
  | none =>
      if kids = [] ∨ (t.proc p).killed = true then (.ret (-1), t)
      else (.sleep, t.setProc p fun pr => { pr with chan := some (.proc p), state := .SLEEPING })

/-- `kkill(pid)`: the first slot with that pid is marked killed and, if
    asleep, made RUNNABLE. -/
def kkill (t : PTable) (pid : Int) : Int × PTable :=
  match (List.finRange NPROC).find? fun p => ((t.proc p).pid : Int) = pid with
  | some p =>
      (0, t.setProc p fun pr =>
        { pr with killed := true, state := if pr.state = .SLEEPING then .RUNNABLE else pr.state })
  | none => (-1, t)

/-- `scheduler()` switching to `p`; `p` then clears `chan` at the end of
    `sleep` if it slept. -/
def schedule (t : PTable) (p : Fin NPROC) : PTable :=
  t.setProc p fun pr => { pr with state := .RUNNING, chan := none }

/-- `yield()` by `p`. -/
def yield (t : PTable) (p : Fin NPROC) : PTable :=
  t.setProc p fun pr => { pr with state := .RUNNABLE }

/-- `sleep(chan, lk)` by `p`, up to `sched()`. -/
def sleep (t : PTable) (p : Fin NPROC) (c : Chan) : PTable :=
  t.setProc p fun pr => { pr with chan := some c, state := .SLEEPING }

/-- `userinit()`: the first process is `initproc`, RUNNABLE; its
    allocation does not fail at boot. -/
def userinit (t : PTable) : PTable :=
  match t.allocproc true with
  | (some p, t) => { t.setProc p fun pr => { pr with state := .RUNNABLE } with initproc := p }
  | (none, t) => t

/-- The table after `procinit`: every slot unused, `nextpid == 1`; there
    is no `initproc` yet, and slot `0` stands for it. -/
def procinit : PTable := ⟨fun _ => Proc.unused, 1, 0⟩

variable {t : PTable} {p q : Fin NPROC} {f : Proc → Proc}

@[simp] theorem setProc_nextpid : (t.setProc p f).nextpid = t.nextpid := rfl

@[simp] theorem setProc_initproc : (t.setProc p f).initproc = t.initproc := rfl

@[simp] theorem setProc_self : (t.setProc p f).proc p = f (t.proc p) :=
  Function.update_self _ _ _

theorem setProc_of_ne (h : q ≠ p) : (t.setProc p f).proc q = t.proc q :=
  Function.update_of_ne h _ _

@[simp] theorem freeproc_nextpid : (t.freeproc p).nextpid = t.nextpid := rfl

@[simp] theorem freeproc_initproc : (t.freeproc p).initproc = t.initproc := rfl

@[simp] theorem kforkAdopt_initproc (np : Fin NPROC) : (t.kforkAdopt p np).initproc = t.initproc :=
  rfl

@[simp] theorem kforkStart_initproc : (t.kforkStart p).initproc = t.initproc := rfl

@[simp] theorem found_nextpid : (t.found p).nextpid = t.nextpid + 1 := rfl

@[simp] theorem found_initproc : (t.found p).initproc = t.initproc := rfl

theorem setProc_apply : (t.setProc p f).proc q = if q = p then f (t.proc p) else t.proc q :=
  Function.update_apply _ _ _ _

@[simp] theorem wakeup_nextpid (c : Chan) (self : Option (Fin NPROC)) :
    (t.wakeup c self).nextpid = t.nextpid := rfl

@[simp] theorem wakeup_initproc (c : Chan) (self : Option (Fin NPROC)) :
    (t.wakeup c self).initproc = t.initproc := rfl

/-- `t'` is `t` where live processes may have moved between live states,
    `nextpid` may have grown and free slots may have been reset, and, for
    `o = some p`, children of `p` may have been given to `initproc`: the
    frame of every step that makes no process, ends none and frees none. -/
structure Grafts (o : Option (Fin NPROC)) (t t' : PTable) : Prop where
  initproc : t'.initproc = t.initproc
  nextpid : t.nextpid ≤ t'.nextpid
  state : ∀ q, (t'.proc q).state = (t.proc q).state ∨
    ((t.proc q).state.alive ∧ (t'.proc q).state.alive)
  parent : ∀ q, (t'.proc q).parent = (t.proc q).parent ∨
    ∃ p ∈ o, (t.proc q).parent = some p ∧ (t'.proc q).parent = some t.initproc
  pid : ∀ q, (t.proc q).state ≠ .UNUSED → (t'.proc q).pid = (t.proc q).pid

namespace Grafts

variable {o : Option (Fin NPROC)} {t₁ t' : PTable}

theorem refl (o : Option (Fin NPROC)) (t : PTable) : Grafts o t t :=
  ⟨rfl, le_rfl, fun _ => .inl rfl, fun _ => .inl rfl, fun _ _ => rfl⟩

/-- A live process stays live. -/
theorem alive (hg : Grafts o t t') (h : (t.proc q).state.alive) : (t'.proc q).state.alive := by
  rcases hg.state q with e | ⟨-, h'⟩
  · rw [e]
    exact h
  · exact h'

/-- A process is in a state that is not live after exactly when before. -/
theorem state_eq_iff (hg : Grafts o t t') (st : ProcState) (hst : st.alive = false) :
    (t'.proc q).state = st ↔ (t.proc q).state = st := by
  rcases hg.state q with e | ⟨h₁, h₂⟩
  · rw [e]
  · constructor <;> intro h <;> simp_all

theorem state_ne_unused (hg : Grafts o t t') (h : (t.proc q).state ≠ .UNUSED) :
    (t'.proc q).state ≠ .UNUSED := by
  rwa [Ne, hg.state_eq_iff .UNUSED rfl]

theorem ne_unused_of (hg : Grafts o t t') (h : (t'.proc q).state ≠ .UNUSED) :
    (t.proc q).state ≠ .UNUSED := by
  rwa [Ne, ← hg.state_eq_iff .UNUSED rfl]

theorem trans (h₁ : Grafts o t t₁) (h₂ : Grafts o t₁ t') : Grafts o t t' := by
  refine ⟨h₂.initproc.trans h₁.initproc, h₁.nextpid.trans h₂.nextpid, fun q => ?_, fun q => ?_,
    fun q hq => ?_⟩
  · rcases h₁.state q with e₁ | ⟨a₁, b₁⟩
    · rw [← e₁]
      exact h₂.state q
    · exact .inr ⟨a₁, h₂.alive b₁⟩
  · rcases h₁.parent q with e₁ | ⟨p, hp, e₁, f₁⟩ <;> rcases h₂.parent q with e₂ | ⟨p', hp', e₂, f₂⟩
    · exact .inl (e₂.trans e₁)
    · exact .inr ⟨p', hp', e₁ ▸ e₂, h₁.initproc ▸ f₂⟩
    · exact .inr ⟨p, hp, e₁, e₂.trans f₁⟩
    · exact .inr ⟨p, hp, e₁, by rw [f₂, h₁.initproc]⟩
  · rw [h₂.pid q (h₁.state_ne_unused hq), h₁.pid q hq]

end Grafts

/-- Changing one process's other fields, or its state between live ones. -/
theorem grafts_setProc (p : Fin NPROC) (f : Proc → Proc) (hpid : (f (t.proc p)).pid = (t.proc p).pid)
    (hparent : (f (t.proc p)).parent = (t.proc p).parent)
    (hstate : (f (t.proc p)).state = (t.proc p).state ∨
      ((t.proc p).state.alive ∧ (f (t.proc p)).state.alive)) :
    Grafts none t (t.setProc p f) := by
  refine ⟨rfl, le_rfl, fun q => ?_, fun q => .inl ?_, fun q _ => ?_⟩ <;>
    rcases eq_or_ne q p with rfl | hq
  all_goals simp_all [setProc_of_ne]

/-- **KILL**: `kkill` compares pids and not states.  Where the first
    UNUSED slot still has pid 0 from `procinit` or `freeproc` and no
    process has pid 0, `kkill(0)` returns 0 and marks that slot killed,
    and the next `allocproc` hands the slot out with `killed` still set. -/
theorem kkill_first_free {np : Fin NPROC}
    (hfirst : (List.finRange NPROC).find? (fun p => (t.proc p).state = .UNUSED) = some np)
    (hpid : (t.proc np).pid = 0) (hlive : ∀ q, (t.proc q).state ≠ .UNUSED → (t.proc q).pid ≠ 0) :
    (t.kkill 0).1 = 0 ∧ ((t.kkill 0).2.allocproc true).1 = some np ∧
      (((t.kkill 0).2.allocproc true).2.proc np).killed = true := by
  obtain ⟨hnp, as, bs, hsplit, hbefore⟩ := List.find?_eq_some_iff_append.mp hfirst
  have hunused : (t.proc np).state = .UNUSED := by simpa using hnp
  -- the slots before `np` are taken, so their pids are not 0
  have hkill : (List.finRange NPROC).find? (fun p => ((t.proc p).pid : Int) = 0) = some np := by
    refine List.find?_eq_some_iff_append.mpr ⟨by simp [hpid], as, bs, hsplit, fun a ha => ?_⟩
    have hused : (t.proc a).state ≠ .UNUSED := by simpa using hbefore a ha
    simpa using hlive a hused
  set t' := t.setProc np fun pr =>
    { pr with killed := true, state := if pr.state = .SLEEPING then .RUNNABLE else pr.state }
  have hkk : t.kkill 0 = (0, t') := by
    simp only [kkill, hkill]
    rfl
  -- marking the slot leaves it UNUSED, so `allocproc` finds it again
  have hsame : (fun p => decide ((t'.proc p).state = .UNUSED)) =
      fun p => decide ((t.proc p).state = .UNUSED) := by
    funext p
    by_cases hp : p = np
    · subst hp
      simp [t', hunused]
    · rw [setProc_of_ne hp]
  have halloc : t'.allocproc true = (some np, t'.found np) := by
    simp only [allocproc, hsame, hfirst, if_true]
  refine ⟨by rw [hkk], by rw [hkk, halloc], ?_⟩
  rw [hkk, halloc]
  simp [found, t']

end PTable

/-! ## Runs of the process table -/

/-- Where a process is in `kfork`: past `allocproc` with child `np`, or
    past `np->parent = p`. -/
inductive Forking where
  | idle
  | allocated (np : Fin NPROC)
  | adopted (np : Fin NPROC)
deriving DecidableEq, Repr

/-- The child a process is forking. -/
def Forking.child : Forking → Option (Fin NPROC)
  | .idle => none
  | .allocated np => some np
  | .adopted np => some np

/-- The table, where each process is in `kfork`, and the values `kwait`
    returned other than `-1`, in order. -/
structure ProcSys where
  table : PTable
  forking : Fin NPROC → Forking
  reaped : List Int

/-- The steps of the processes and of the scheduler: the three steps of
    `kfork`, `kexit` (by a system call, or by `usertrap` for a killed
    process), a pass of `kwait`, `kkill`, the scheduler's switch, `yield`
    on a timer interrupt, a `sleep` and a `wakeup` elsewhere in the kernel. -/
inductive ProcAct where
  | forkAlloc (p : Fin NPROC) (allocOk copyOk : Bool)
  | forkAdopt (p : Fin NPROC)
  | forkStart (p : Fin NPROC)
  | exit (p : Fin NPROC) (status : Int)
  | wait (p : Fin NPROC) (copyok : Bool)
  | kill (p : Fin NPROC) (pid : Int)
  | run (p : Fin NPROC)
  | yield (p : Fin NPROC)
  | sleep (p : Fin NPROC) (a : Nat)
  | wakeup (a : Nat) (self : Option (Fin NPROC))
deriving DecidableEq, Repr

/-- `p` runs and is not inside `kfork`, so it can enter a system call. -/
def ProcSys.ready (s : ProcSys) (p : Fin NPROC) : Bool :=
  (s.table.proc p).state = .RUNNING ∧ s.forking p = .idle

open PTable in
/-- One step; a process takes the steps of `kfork` in order, and runs the
    others from a system call. -/
def procStep (s : ProcSys) : ProcAct → Outcome ProcSys
  | .forkAlloc p allocOk copyOk =>
      if s.ready p then
        match s.table.kforkAlloc allocOk copyOk with
        | (some np, t) =>
            .next { s with table := t, forking := Function.update s.forking p (.allocated np) }
        | (none, t) => .next { s with table := t }
      else .blocked
  | .forkAdopt p =>
      match s.forking p with
      | .allocated np =>
          if (s.table.proc p).state = .RUNNING then
            .next { s with table := s.table.kforkAdopt p np,
                           forking := Function.update s.forking p (.adopted np) }
          else .blocked
      | _ => .blocked
  | .forkStart p =>
      match s.forking p with
      | .adopted np =>
          if (s.table.proc p).state = .RUNNING then
            .next { s with table := s.table.kforkStart np,
                           forking := Function.update s.forking p .idle }
          else .blocked
      | _ => .blocked
  | .exit p status =>
      if s.ready p then
        match s.table.kexit p status with
        | .ok t => .next { s with table := t }
        | .error msg => .panic msg
      else .blocked
  | .wait p copyok =>
      if s.ready p then
        match s.table.kwait p copyok with
        | (.ret v, t) =>
            .next { s with table := t, reaped := if 0 ≤ v then s.reaped ++ [v] else s.reaped }
        | (.sleep, t) => .next { s with table := t }
      else .blocked
  | .kill p pid => if s.ready p then .next { s with table := (s.table.kkill pid).2 } else .blocked
  | .run p =>
      if (s.table.proc p).state = .RUNNABLE then .next { s with table := s.table.schedule p }
      else .blocked
  | .yield p =>
      if (s.table.proc p).state = .RUNNING then .next { s with table := s.table.yield p }
      else .blocked
  | .sleep p a => if s.ready p then .next { s with table := s.table.sleep p (.other a) } else .blocked
  | .wakeup a self => .next { s with table := s.table.wakeup (.other a) self }

/-- The system after `procinit` and `userinit`. -/
def procInit : ProcSys := ⟨PTable.procinit.userinit, fun _ => .idle, []⟩

open PTable

/-- What a moving step does: those that make, end and free no process
    are a frame; the others are the steps of `kfork`, `kexit`, and a
    `kwait` that frees a zombie. -/
inductive Moves (s : ProcSys) : ProcAct → ProcSys → Prop where
  | frame {a : ProcAct} {s' : ProcSys} : Grafts none s.table s'.table → s'.forking = s.forking →
      s'.reaped = s.reaped → Moves s a s'
  | forkFail {p : Fin NPROC} {allocOk copyOk : Bool} (np : Fin NPROC) :
      (s.table.proc np).state = .UNUSED →
      Moves s (.forkAlloc p allocOk copyOk) { s with table := (s.table.found np).freeproc np }
  | forkAlloc {allocOk copyOk : Bool} (p np : Fin NPROC) : (s.table.proc p).state = .RUNNING →
      s.forking p = .idle → (s.table.proc np).state = .UNUSED →
      Moves s (.forkAlloc p allocOk copyOk)
        { s with table := s.table.found np, forking := Function.update s.forking p (.allocated np) }
  | forkAdopt (p np : Fin NPROC) : (s.table.proc p).state = .RUNNING →
      s.forking p = .allocated np →
      Moves s (.forkAdopt p)
        { s with table := s.table.kforkAdopt p np, forking := Function.update s.forking p (.adopted np) }
  | forkStart (p np : Fin NPROC) : (s.table.proc p).state = .RUNNING →
      s.forking p = .adopted np →
      Moves s (.forkStart p)
        { s with table := s.table.kforkStart np, forking := Function.update s.forking p .idle }
  | exit (p : Fin NPROC) (status : Int) (t₂ : PTable) : (s.table.proc p).state = .RUNNING →
      s.forking p = .idle → p ≠ s.table.initproc → Grafts (some p) s.table t₂ →
      (∀ q, (t₂.proc q).parent ≠ some p) →
      Moves s (.exit p status)
        { s with table := t₂.setProc p fun pr => { pr with xstate := status, state := .ZOMBIE } }
  | reap (p : Fin NPROC) (copyok : Bool) (pp : Fin NPROC) : (s.table.proc p).state = .RUNNING →
      s.forking p = .idle → (s.table.proc pp).parent = some p → (s.table.proc pp).state = .ZOMBIE →
      (s.table.kwait p copyok).1 = .ret (s.table.proc pp).pid →
      Moves s (.wait p copyok)
        { s with table := s.table.freeproc pp, reaped := s.reaped ++ [((s.table.proc pp).pid : Int)] }

variable {s s' : ProcSys} {a : ProcAct}

/-- A change of a running process's own state to another live one. -/
theorem Moves.own {p : Fin NPROC} (f : Proc → Proc) (hp : (s.table.proc p).state.alive)
    (hpid : (f (s.table.proc p)).pid = (s.table.proc p).pid)
    (hparent : (f (s.table.proc p)).parent = (s.table.proc p).parent)
    (hstate : (f (s.table.proc p)).state.alive) :
    Moves s a { s with table := s.table.setProc p f } :=
  .frame (grafts_setProc p f hpid hparent (.inr ⟨hp, hstate⟩)) rfl rfl

/-- The pids of taken slots are distinct and below `nextpid`; the pids
    `reaped` are distinct, below `nextpid`, and taken by no slot. -/
structure PidsFresh (t : PTable) (reaped : List Int) : Prop where
  pid_lt : ∀ q, (t.proc q).state ≠ .UNUSED → (t.proc q).pid < t.nextpid
  pid_unique : ∀ q r, (t.proc q).state ≠ .UNUSED → (t.proc r).state ≠ .UNUSED →
    (t.proc q).pid = (t.proc r).pid → q = r
  reaped_old : ∀ v ∈ reaped, v < t.nextpid ∧
    ∀ q, (t.proc q).state ≠ .UNUSED → ((t.proc q).pid : Int) ≠ v
  reaped_nodup : reaped.Nodup

namespace PidsFresh

variable {t t' : PTable} {r : List Int} {x : Fin NPROC}

/-- Slots taken after were taken before, with the same pid. -/
theorem keep (h : PidsFresh t r)
    (hst : ∀ q, (t'.proc q).state ≠ .UNUSED → (t.proc q).state ≠ .UNUSED)
    (hpid : ∀ q, (t'.proc q).state ≠ .UNUSED → (t'.proc q).pid = (t.proc q).pid)
    (hn : t.nextpid ≤ t'.nextpid) : PidsFresh t' r where
  pid_lt q hq := by
    rw [hpid q hq]
    exact lt_of_lt_of_le (h.pid_lt q (hst q hq)) hn
  pid_unique q q' hq hq' he := by
    rw [hpid q hq, hpid q' hq'] at he
    exact h.pid_unique q q' (hst q hq) (hst q' hq') he
  reaped_old v hv := by
    obtain ⟨hlt, hne⟩ := h.reaped_old v hv
    refine ⟨by omega, fun q hq => ?_⟩
    rw [hpid q hq]
    exact hne q (hst q hq)
  reaped_nodup := h.reaped_nodup

theorem grafts {o : Option (Fin NPROC)} (h : PidsFresh t r) (hg : Grafts o t t') : PidsFresh t' r :=
  h.keep (fun _ => hg.ne_unused_of) (fun q hq => hg.pid q (hg.ne_unused_of hq)) hg.nextpid

/-- `found:` takes a free slot with the pid `nextpid`. -/
theorem found (h : PidsFresh t r) (hx : (t.proc x).state = .UNUSED) : PidsFresh (t.found x) r := by
  have hother : ∀ q, q ≠ x → (t.found x).proc q = t.proc q := fun _ hq => setProc_of_ne hq
  have hnew : (t.found x).proc x = { t.proc x with pid := t.nextpid, state := .USED } := setProc_self
  have hold : ∀ q, q ≠ x → ((t.found x).proc q).state ≠ .UNUSED →
      ((t.found x).proc q).pid < t.nextpid := fun q hq hu => by
    rw [hother q hq] at hu ⊢
    exact h.pid_lt q hu
  constructor
  · intro q hq
    rw [found_nextpid]
    rcases eq_or_ne q x with rfl | hq'
    · rw [hnew]
      exact Nat.lt_succ_self _
    · exact Nat.lt_succ_of_lt (hold q hq' hq)
  · intro q q' hq hq' he
    rcases eq_or_ne q x with hqx | hqx <;> rcases eq_or_ne q' x with hq'x | hq'x
    · exact hqx.trans hq'x.symm
    · subst hqx
      simp only [hnew] at he
      exact absurd he.symm (Nat.ne_of_lt (hold q' hq'x hq'))
    · subst hq'x
      simp only [hnew] at he
      exact absurd he (Nat.ne_of_lt (hold q hqx hq))
    · simp only [hother q hqx, hother q' hq'x] at he hq hq'
      exact h.pid_unique q q' hq hq' he
  · intro v hv
    obtain ⟨hlt, hne⟩ := h.reaped_old v hv
    refine ⟨by simp only [found_nextpid]; omega, fun q hq => ?_⟩
    rcases eq_or_ne q x with rfl | hq'
    · simp only [hnew]
      omega
    · rw [hother q hq'] at hq ⊢
      exact hne q hq
  · exact h.reaped_nodup

/-- Freeing a taken slot and recording its pid as returned. -/
theorem reap (h : PidsFresh t r) (hx : (t.proc x).state ≠ .UNUSED) :
    PidsFresh (t.freeproc x) (r ++ [((t.proc x).pid : Int)]) := by
  have hother : ∀ q, q ≠ x → (t.freeproc x).proc q = t.proc q := fun _ hq => setProc_of_ne hq
  have htaken : ∀ q, ((t.freeproc x).proc q).state ≠ .UNUSED → q ≠ x := by
    rintro q hq rfl
    simp [freeproc] at hq
  have h' : PidsFresh (t.freeproc x) r :=
    h.keep (fun q hq => by rwa [← hother q (htaken q hq)])
      (fun q hq => by rw [hother q (htaken q hq)]) le_rfl
  refine ⟨h'.pid_lt, h'.pid_unique, fun v hv => ?_, ?_⟩
  · rcases List.mem_append.mp hv with hv | hv
    · exact h'.reaped_old v hv
    · -- the pid returned is taken by no other slot
      rw [List.mem_singleton] at hv
      subst hv
      refine ⟨by simpa using h.pid_lt x hx, fun q hq he => ?_⟩
      have hqx := htaken q hq
      rw [hother q hqx] at hq he
      exact hqx (h.pid_unique q x hq hx (by exact_mod_cast he))
  · refine List.nodup_append.mpr ⟨h.reaped_nodup, List.nodup_singleton _, ?_⟩
    intro v hv w hw
    rw [List.mem_singleton] at hw
    subst hw
    exact ((h.reaped_old v hv).2 x hx).symm

end PidsFresh

/-- The invariant of the tree: `initproc` is live; every other live or
    zombie process has a live parent; zombies have no children; free slots
    have no parent; a child being forked is USED, has its parent set once
    adopted, and belongs to one `kfork`; and the pids are fresh. -/
structure ProcSys.Inv (s : ProcSys) : Prop where
  init_alive : (s.table.proc s.table.initproc).state.alive
  parent_alive : ∀ q, q ≠ s.table.initproc →
    (s.table.proc q).state.alive ∨ (s.table.proc q).state = .ZOMBIE →
    ∃ pp, (s.table.proc q).parent = some pp ∧ (s.table.proc pp).state.alive
  zombie_childless : ∀ q r, (s.table.proc q).state = .ZOMBIE → (s.table.proc r).parent ≠ some q
  unused_root : ∀ q, (s.table.proc q).state = .UNUSED → (s.table.proc q).parent = none
  allocated : ∀ p np, s.forking p = .allocated np →
    (s.table.proc np).state = .USED ∧ (s.table.proc np).parent = none
  adopted : ∀ p np, s.forking p = .adopted np →
    (s.table.proc np).state = .USED ∧ (s.table.proc np).parent = some p
  fork_unique : ∀ p p' np, (s.forking p).child = some np → (s.forking p').child = some np → p = p'
  pids : PidsFresh s.table s.reaped

namespace ProcSys.Inv

variable {p np q : Fin NPROC}

theorem child_used (hs : s.Inv) (h : (s.forking p).child = some np) :
    (s.table.proc np).state = .USED := by
  cases hf : s.forking p with
  | idle => simp [hf, Forking.child] at h
  | allocated x =>
    simp only [hf, Forking.child, Option.some.injEq] at h
    subst h
    exact (hs.allocated p _ hf).1
  | adopted x =>
    simp only [hf, Forking.child, Option.some.injEq] at h
    subst h
    exact (hs.adopted p _ hf).1

/-- The invariant holds through a frame step, if the process whose
    children move is not inside `kfork`. -/
theorem frame {o : Option (Fin NPROC)} (hs : s.Inv) (hg : Grafts o s.table s'.table)
    (hf : s'.forking = s.forking) (hr : s'.reaped = s.reaped)
    (ho : ∀ p ∈ o, s.forking p = .idle) : s'.Inv where
  init_alive := by
    rw [hg.initproc]
    exact hg.alive hs.init_alive
  parent_alive q hq hl := by
    rw [hg.initproc] at hq
    have hl₀ : (s.table.proc q).state.alive ∨ (s.table.proc q).state = .ZOMBIE := by
      rcases hg.state q with e | ⟨h, -⟩
      · rwa [← e]
      · exact .inl h
    obtain ⟨pp, hpp, hal⟩ := hs.parent_alive q hq hl₀
    rcases hg.parent q with e | ⟨-, -, -, e⟩
    · exact ⟨pp, e.trans hpp, hg.alive hal⟩
    · exact ⟨_, e, hg.alive hs.init_alive⟩
  zombie_childless q r hz hr := by
    rw [hg.state_eq_iff .ZOMBIE rfl] at hz
    rcases hg.parent r with e | ⟨-, -, -, e⟩
    · exact hs.zombie_childless q r hz (e ▸ hr)
    · -- only `initproc` gains children, and it is live
      rw [e, Option.some.injEq] at hr
      have hi := hs.init_alive
      rw [hr, hz] at hi
      cases hi
  unused_root q hq := by
    rw [hg.state_eq_iff .UNUSED rfl] at hq
    rcases hg.parent q with e | ⟨_, -, e, -⟩
    · rw [e]
      exact hs.unused_root q hq
    · simp [hs.unused_root q hq] at e
  allocated p np h := by
    rw [hf] at h
    obtain ⟨hu, hn⟩ := hs.allocated p np h
    refine ⟨(hg.state_eq_iff .USED rfl).mpr hu, ?_⟩
    rcases hg.parent np with e | ⟨_, -, e, -⟩
    · rw [e, hn]
    · simp [hn] at e
  adopted p np h := by
    rw [hf] at h
    obtain ⟨hu, hn⟩ := hs.adopted p np h
    refine ⟨(hg.state_eq_iff .USED rfl).mpr hu, ?_⟩
    rcases hg.parent np with e | ⟨p₀, hp₀, e, -⟩
    · rw [e, hn]
    · -- the children of a process inside `kfork` do not move
      rw [hn, Option.some.injEq] at e
      subst e
      simp [ho p hp₀] at h
  fork_unique := by
    rw [hf]
    exact hs.fork_unique
  pids := by
    rw [hr]
    exact hs.pids.grafts hg

/-- `kfork` taking a free slot: the slot becomes the forker's USED child
    with a fresh pid. -/
theorem forkAlloc (hs : s.Inv) (hnp : (s.table.proc np).state = .UNUSED) :
    ({ s with table := s.table.found np,
               forking := Function.update s.forking p (.allocated np) } : ProcSys).Inv := by
  have htaken : ∀ q, (s.table.proc q).state ≠ .UNUSED → q ≠ np := fun q hq e => hq (e ▸ hnp)
  have hother : ∀ q, q ≠ np → (s.table.found np).proc q = s.table.proc q :=
    fun _ hq => setProc_of_ne hq
  have hnew : (s.table.found np).proc np =
      { s.table.proc np with pid := s.table.nextpid, state := .USED } := setProc_self
  have hfresh : ∀ p', (s.forking p').child ≠ some np := fun p' h => by
    simp [hs.child_used h] at hnp
  constructor <;> dsimp only
  · rw [found_initproc, hother _ (htaken _ (ProcState.ne_unused_of_alive hs.init_alive))]
    exact hs.init_alive
  · intro q hq hl
    have hq' : q ≠ np := by
      rintro rfl
      simp [hnew] at hl
    rw [hother q hq'] at hl ⊢
    obtain ⟨pp, hpp, hal⟩ := hs.parent_alive q hq hl
    exact ⟨pp, hpp, by rwa [hother pp (htaken pp (ProcState.ne_unused_of_alive hal))]⟩
  · intro q r hz hr
    have hq' : q ≠ np := by
      rintro rfl
      simp [hnew] at hz
    rw [hother q hq'] at hz
    rcases eq_or_ne r np with rfl | hr'
    · rw [hnew] at hr
      exact hs.zombie_childless q r hz hr
    · rw [hother r hr'] at hr
      exact hs.zombie_childless q r hz hr
  · intro q hq
    have hq' : q ≠ np := by
      rintro rfl
      simp [hnew] at hq
    rw [hother q hq'] at hq ⊢
    exact hs.unused_root q hq
  · intro p' np' h
    rcases eq_or_ne p' p with rfl | hp
    · simp only [Function.update_self, Forking.allocated.injEq] at h
      subst h
      rw [hnew]
      exact ⟨rfl, hs.unused_root _ hnp⟩
    · rw [Function.update_of_ne hp] at h
      have hne : np' ≠ np := fun e => hfresh p' (by rw [h, e]; rfl)
      rw [hother np' hne]
      exact hs.allocated p' np' h
  · intro p' np' h
    have hp : p' ≠ p := by
      rintro rfl
      simp at h
    rw [Function.update_of_ne hp] at h
    have hne : np' ≠ np := fun e => hfresh p' (by rw [h, e]; rfl)
    rw [hother np' hne]
    exact hs.adopted p' np' h
  · intro p₁ p₂ x h₁ h₂
    rcases eq_or_ne p₁ p with rfl | h₁p <;> rcases eq_or_ne p₂ p₁ with rfl | h₂p
    all_goals first
      | rfl
      | simp only [Function.update_self, Function.update_of_ne, Forking.child, Option.some.injEq, ne_eq,
          not_false_eq_true, *] at h₁ h₂
    · subst h₁
      exact absurd h₂ (hfresh p₂)
    · rcases eq_or_ne p₂ p with rfl | h₂p'
      · simp only [Function.update_self, Option.some.injEq] at h₂
        subst h₂
        exact absurd h₁ (hfresh p₁)
      · rw [Function.update_of_ne h₂p'] at h₂
        exact hs.fork_unique p₁ p₂ x h₁ h₂
  · exact hs.pids.found hnp

/-- `np->parent = p` in `kfork`: the child, still USED, gets its parent. -/
theorem forkAdopt (hs : s.Inv) (hrun : (s.table.proc p).state = .RUNNING)
    (hf : s.forking p = .allocated np) :
    ({ s with table := s.table.kforkAdopt p np,
               forking := Function.update s.forking p (.adopted np) } : ProcSys).Inv := by
  obtain ⟨hused, -⟩ := hs.allocated p np hf
  have hother : ∀ q, q ≠ np → (s.table.kforkAdopt p np).proc q = s.table.proc q :=
    fun _ hq => setProc_of_ne hq
  have hnew : (s.table.kforkAdopt p np).proc np = { s.table.proc np with parent := some p } :=
    setProc_self
  -- only the child's parent changes
  have hsame : ∀ q, ((s.table.kforkAdopt p np).proc q).state = (s.table.proc q).state ∧
      ((s.table.kforkAdopt p np).proc q).pid = (s.table.proc q).pid := fun q => by
    rcases eq_or_ne q np with rfl | hq
    · rw [hnew]
      exact ⟨rfl, rfl⟩
    · rw [hother q hq]
      exact ⟨rfl, rfl⟩
  have hchild : ∀ p', (Function.update s.forking p (.adopted np) p').child = (s.forking p').child :=
    fun p' => by
      rcases eq_or_ne p' p with rfl | hp
      · simp [hf, Forking.child]
      · rw [Function.update_of_ne hp]
  -- another process's child is not `np`
  have hmine : ∀ p' x, p' ≠ p → (s.forking p').child = some x → x ≠ np := fun p' x hp h e =>
    hp (hs.fork_unique p' p x h (by rw [hf, e]; rfl))
  constructor <;> dsimp only
  · rw [(hsame _).1]
    exact hs.init_alive
  · intro q hq hl
    rw [(hsame q).1] at hl
    have hq' : q ≠ np := by
      rintro rfl
      simp [hused] at hl
    obtain ⟨pp, hpp, hal⟩ := hs.parent_alive q hq hl
    exact ⟨pp, by rw [hother q hq']; exact hpp, by rw [(hsame pp).1]; exact hal⟩
  · intro q r hz hr
    rw [(hsame q).1] at hz
    rcases eq_or_ne r np with rfl | hr'
    · -- the new parent runs, so is no zombie
      rw [hnew, Option.some.injEq] at hr
      subst hr
      rw [hrun] at hz
      cases hz
    · rw [hother r hr'] at hr
      exact hs.zombie_childless q r hz hr
  · intro q hq
    rw [(hsame q).1] at hq
    have hq' : q ≠ np := by
      rintro rfl
      rw [hused] at hq
      cases hq
    rw [hother q hq']
    exact hs.unused_root q hq
  · intro p' np' h
    have hp : p' ≠ p := by
      rintro rfl
      simp at h
    rw [Function.update_of_ne hp] at h
    rw [hother np' (hmine p' np' hp (by rw [h]; rfl))]
    exact hs.allocated p' np' h
  · intro p' np' h
    rcases eq_or_ne p' p with rfl | hp
    · simp only [Function.update_self, Forking.adopted.injEq] at h
      subst h
      rw [hnew]
      exact ⟨hused, rfl⟩
    · rw [Function.update_of_ne hp] at h
      rw [hother np' (hmine p' np' hp (by rw [h]; rfl))]
      exact hs.adopted p' np' h
  · intro p₁ p₂ x h₁ h₂
    rw [hchild] at h₁ h₂
    exact hs.fork_unique p₁ p₂ x h₁ h₂
  · exact hs.pids.keep (fun q hq => by rwa [← (hsame q).1]) (fun q _ => (hsame q).2) le_rfl

/-- `np->state = RUNNABLE`, the end of `kfork`: the child runs, with its
    running parent. -/
theorem forkStart (hs : s.Inv) (hrun : (s.table.proc p).state = .RUNNING)
    (hf : s.forking p = .adopted np) :
    ({ s with table := s.table.kforkStart np,
               forking := Function.update s.forking p .idle } : ProcSys).Inv := by
  obtain ⟨hused, hpar⟩ := hs.adopted p np hf
  have hother : ∀ q, q ≠ np → (s.table.kforkStart np).proc q = s.table.proc q :=
    fun _ hq => setProc_of_ne hq
  have hnew : (s.table.kforkStart np).proc np = { s.table.proc np with state := .RUNNABLE } :=
    setProc_self
  have hlive : ∀ q, (s.table.proc q).state.alive → q ≠ np := by
    rintro q hq rfl
    simp [hused] at hq
  -- only the child's state changes
  have hsame : ∀ q, ((s.table.kforkStart np).proc q).parent = (s.table.proc q).parent ∧
      ((s.table.kforkStart np).proc q).pid = (s.table.proc q).pid := fun q => by
    rcases eq_or_ne q np with rfl | hq
    · rw [hnew]
      exact ⟨rfl, rfl⟩
    · rw [hother q hq]
      exact ⟨rfl, rfl⟩
  have hmine : ∀ p' x, p' ≠ p → (s.forking p').child = some x → x ≠ np := fun p' x hp h e =>
    hp (hs.fork_unique p' p x h (by rw [hf, e]; rfl))
  constructor <;> dsimp only
  · rw [kforkStart_initproc, hother _ (hlive _ hs.init_alive)]
    exact hs.init_alive
  · intro q hq hl
    rcases eq_or_ne q np with rfl | hq'
    · -- the child's parent is the process that forked it, which runs
      refine ⟨p, by rw [hnew]; exact hpar, ?_⟩
      rw [hother p (hlive p (by simp [hrun]))]
      simp [hrun]
    · rw [hother q hq'] at hl ⊢
      obtain ⟨pp, hpp, hal⟩ := hs.parent_alive q hq hl
      exact ⟨pp, hpp, by rw [hother pp (hlive pp hal)]; exact hal⟩
  · intro q r hz hr
    have hq' : q ≠ np := by
      rintro rfl
      simp [hnew] at hz
    rw [hother q hq'] at hz
    rw [(hsame r).1] at hr
    exact hs.zombie_childless q r hz hr
  · intro q hq
    have hq' : q ≠ np := by
      rintro rfl
      simp [hnew] at hq
    rw [hother q hq'] at hq ⊢
    exact hs.unused_root q hq
  · intro p' np' h
    have hp : p' ≠ p := by
      rintro rfl
      simp at h
    rw [Function.update_of_ne hp] at h
    rw [hother np' (hmine p' np' hp (by rw [h]; rfl))]
    exact hs.allocated p' np' h
  · intro p' np' h
    have hp : p' ≠ p := by
      rintro rfl
      simp at h
    rw [Function.update_of_ne hp] at h
    rw [hother np' (hmine p' np' hp (by rw [h]; rfl))]
    exact hs.adopted p' np' h
  · intro p₁ p₂ x h₁ h₂
    have hp₁ : p₁ ≠ p := by
      rintro rfl
      simp [Forking.child] at h₁
    have hp₂ : p₂ ≠ p := by
      rintro rfl
      simp [Forking.child] at h₂
    rw [Function.update_of_ne hp₁] at h₁
    rw [Function.update_of_ne hp₂] at h₂
    exact hs.fork_unique p₁ p₂ x h₁ h₂
  · have htaken : ∀ q, ((s.table.kforkStart np).proc q).state ≠ .UNUSED →
        (s.table.proc q).state ≠ .UNUSED := fun q hq => by
      rcases eq_or_ne q np with rfl | hq'
      · rw [hused]
        decide
      · rwa [← hother q hq']
    exact hs.pids.keep htaken (fun q _ => (hsame q).2) le_rfl

/-- The end of `kexit`: a live process other than `initproc` with no
    children becomes a ZOMBIE. -/
theorem zombie {status : Int} (hs : s.Inv) (hp : (s.table.proc p).state.alive)
    (hi : p ≠ s.table.initproc) (horph : ∀ q, (s.table.proc q).parent ≠ some p) :
    ({ s with table := s.table.setProc p fun pr => { pr with xstate := status, state := .ZOMBIE } } :
      ProcSys).Inv := by
  have hother : ∀ q, q ≠ p → (s.table.setProc p fun pr => { pr with xstate := status, state := .ZOMBIE }).proc q
      = s.table.proc q := fun _ hq => setProc_of_ne hq
  have hsame : ∀ q, ((s.table.setProc p fun pr => { pr with xstate := status, state := .ZOMBIE }).proc q).parent
      = (s.table.proc q).parent ∧
      ((s.table.setProc p fun pr => { pr with xstate := status, state := .ZOMBIE }).proc q).pid
      = (s.table.proc q).pid := fun q => by
    rcases eq_or_ne q p with rfl | hq
    · simp
    · rw [hother q hq]
      exact ⟨rfl, rfl⟩
  constructor <;> dsimp only
  · rw [setProc_initproc, hother _ (Ne.symm hi)]
    exact hs.init_alive
  · intro q hq _
    -- the parent of every process is still live: it is not `p`, which has no child
    have hl : (s.table.proc q).state.alive ∨ (s.table.proc q).state = .ZOMBIE := by
      rcases eq_or_ne q p with rfl | hq'
      · exact .inl hp
      · rw [hother q hq'] at *
        assumption
    obtain ⟨pp, hpp, hal⟩ := hs.parent_alive q hq hl
    have hpp' : pp ≠ p := by
      rintro rfl
      exact horph q hpp
    exact ⟨pp, by rw [(hsame q).1]; exact hpp, by rw [hother pp hpp']; exact hal⟩
  · intro q r hz hr
    rw [(hsame r).1] at hr
    rcases eq_or_ne q p with rfl | hq'
    · exact horph r hr
    · rw [hother q hq'] at hz
      exact hs.zombie_childless q r hz hr
  · intro q hq
    have hq' : q ≠ p := by
      rintro rfl
      simp at hq
    rw [hother q hq'] at hq ⊢
    exact hs.unused_root q hq
  · intro p' np' h
    obtain ⟨hu, hn⟩ := hs.allocated p' np' h
    have hne : np' ≠ p := by
      rintro rfl
      simp [hu] at hp
    rw [hother np' hne]
    exact ⟨hu, hn⟩
  · intro p' np' h
    obtain ⟨hu, hn⟩ := hs.adopted p' np' h
    have hne : np' ≠ p := by
      rintro rfl
      simp [hu] at hp
    rw [hother np' hne]
    exact ⟨hu, hn⟩
  · exact hs.fork_unique
  · have htaken : ∀ q, ((s.table.setProc p fun pr => { pr with xstate := status, state := .ZOMBIE }).proc q).state
        ≠ .UNUSED → (s.table.proc q).state ≠ .UNUSED := fun q hq => by
      rcases eq_or_ne q p with rfl | hq'
      · exact ProcState.ne_unused_of_alive hp
      · rwa [← hother q hq']
    exact hs.pids.keep htaken (fun q _ => (hsame q).2) le_rfl

/-- `kwait` freeing a zombie child and returning its pid. -/
theorem reap (hs : s.Inv) (hz : (s.table.proc q).state = .ZOMBIE) :
    ({ s with table := s.table.freeproc q,
               reaped := s.reaped ++ [((s.table.proc q).pid : Int)] } : ProcSys).Inv := by
  have hother : ∀ r, r ≠ q → (s.table.freeproc q).proc r = s.table.proc r := fun _ hr => setProc_of_ne hr
  have hfree : ((s.table.freeproc q).proc q).state = .UNUSED ∧
      ((s.table.freeproc q).proc q).parent = none := by
    simp [freeproc]
  have hlive : ∀ r, (s.table.proc r).state.alive → r ≠ q := by
    rintro r hr rfl
    simp [hz] at hr
  constructor <;> dsimp only
  · rw [freeproc_initproc, hother _ (hlive _ hs.init_alive)]
    exact hs.init_alive
  · intro r hr hl
    have hr' : r ≠ q := by
      rintro rfl
      simp [hfree] at hl
    rw [hother r hr'] at hl ⊢
    obtain ⟨pp, hpp, hal⟩ := hs.parent_alive r hr hl
    exact ⟨pp, hpp, by rw [hother pp (hlive pp hal)]; exact hal⟩
  · intro r r' hz' hr
    have hrq : r ≠ q := by
      rintro rfl
      simp [hfree] at hz'
    rw [hother r hrq] at hz'
    rcases eq_or_ne r' q with rfl | hr'
    · simp [hfree] at hr
    · rw [hother r' hr'] at hr
      exact hs.zombie_childless r r' hz' hr
  · intro r hr
    rcases eq_or_ne r q with rfl | hr'
    · exact hfree.2
    · rw [hother r hr'] at hr ⊢
      exact hs.unused_root r hr
  · intro p np h
    obtain ⟨hu, hn⟩ := hs.allocated p np h
    have hne : np ≠ q := by
      rintro rfl
      simp [hu] at hz
    rw [hother np hne]
    exact ⟨hu, hn⟩
  · intro p np h
    obtain ⟨hu, hn⟩ := hs.adopted p np h
    have hne : np ≠ q := by
      rintro rfl
      simp [hu] at hz
    rw [hother np hne]
    exact ⟨hu, hn⟩
  · exact hs.fork_unique
  · exact hs.pids.reap (by simp [hz])

end ProcSys.Inv

theorem found_freeproc_grafts {t : PTable} {np : Fin NPROC} (hnp : (t.proc np).state = .UNUSED)
    (hroot : (t.proc np).parent = none) : Grafts none t ((t.found np).freeproc np) := by
  have hother : ∀ q, q ≠ np → ((t.found np).freeproc np).proc q = t.proc q := fun q hq => by
    rw [freeproc, setProc_of_ne hq, found, setProc_of_ne hq]
  refine ⟨rfl, Nat.le_succ _, fun q => .inl ?_, fun q => .inl ?_, fun q hq => ?_⟩ <;>
    rcases eq_or_ne q np with rfl | hq'
  · simp [freeproc, hnp]
  · rw [hother q hq']
  · simp [freeproc, hroot]
  · rw [hother q hq']
  · exact absurd hnp hq
  · rw [hother q hq']

/-- **INVARIANT STEP**: every moving step keeps the invariant. -/
theorem Moves.inv (hm : Moves s a s') (hs : s.Inv) : s'.Inv := by
  cases hm with
  | frame hg hf hr => exact hs.frame hg hf hr (by simp)
  | forkFail np hnp =>
    exact hs.frame (found_freeproc_grafts hnp (hs.unused_root np hnp)) rfl rfl (by simp)
  | forkAlloc p np _ _ hnp => exact hs.forkAlloc hnp
  | forkAdopt p np hrun hf => exact hs.forkAdopt hrun hf
  | forkStart p np hrun hf => exact hs.forkStart hrun hf
  | exit p status t₂ hrun hidle hi hg horph =>
    -- `reparent` and the wakeups first, then the state
    have h₂ : ({ s with table := t₂ } : ProcSys).Inv := hs.frame hg rfl rfl (by simpa using hidle)
    exact h₂.zombie (hg.alive (by simp [hrun])) (by rwa [hg.initproc]) horph
  | reap p copyok pp _ _ _ hz _ => exact hs.reap hz

set_option maxRecDepth 4096 in
/-- `initproc` calls `kill(0)`.  No process has pid 0, yet `kkill`
    returns 0: it marked the free slot 1, which `freeproc` never reaches
    again before `allocproc` hands it to `initproc`'s next `fork`, so the
    child starts out killed. -/
theorem kill_zero_poisons_child :
    ∃ s s', Reachable procInit procStep s ∧
      (∀ q, (s.table.proc q).state ≠ .UNUSED → ((s.table.proc q).pid : Int) ≠ 0) ∧
      (s.table.kkill 0).1 = 0 ∧
      replay procStep s [.kill 0 0, .forkAlloc 0 true true] = some s' ∧
      s'.forking 0 = .allocated 1 ∧ (s'.table.proc 1).state = .USED ∧
      (s'.table.proc 1).killed = true := by
  have hrun : (replay procStep procInit [.run 0]).map (fun s =>
      (decide (∀ q, (s.table.proc q).state ≠ .UNUSED → ((s.table.proc q).pid : Int) ≠ 0),
        (s.table.kkill 0).1,
        (replay procStep s [.kill 0 0, .forkAlloc 0 true true]).map fun s' =>
          (s'.forking 0, (s'.table.proc 1).state, (s'.table.proc 1).killed))) =
      some (true, 0, some (.allocated 1, .USED, true)) := by
    decide
  obtain ⟨s, hs, he⟩ := Option.map_eq_some_iff.mp hrun
  simp only [Prod.mk.injEq, decide_eq_true_eq] at he
  obtain ⟨hlive, hkill, hnext⟩ := he
  obtain ⟨s', hs', he'⟩ := Option.map_eq_some_iff.mp hnext
  simp only [Prod.mk.injEq] at he'
  exact ⟨s, s', replay_reachable .init hs, hlive, hkill, hs', he'.1, he'.2.1, he'.2.2⟩

end Xv6.Proc
