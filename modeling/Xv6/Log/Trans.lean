import Mathlib
import Xv6.Lib.Machine
import Xv6.Param

/-! # Log transactions: `begin_op`, `log_write` and `end_op` interleaved

    The in-memory half of `log.c`.  `log.outstanding` counts the file-system
    calls in progress, `log.committing` is set while `commit` runs, and
    `log.lh` lists the blocks of the current transaction.  `begin_op` admits
    an operation only while the log can still hold `MAXOPBLOCKS` blocks for
    it and for every operation already admitted; `log_write` absorbs a block
    that is already logged and appends any other one.

    Any number of processes run `begin_op(); log_write(b)*; end_op()`, each
    operation writing at most `MAXOPBLOCKS` distinct blocks; their steps
    interleave at `log.lock`.  A process's phase also records, as ghost
    state, the distinct blocks its operation has written and how many of
    them it appended.

    * `LogInv`: the transaction's blocks are distinct, the unused
      reservations of the admitted operations fit beside them,
      `outstanding` counts the admitted operations, and `committing` is
      set exactly while one process commits with none in progress;
    * `logInv_step`, `logInv_reachable`: every step keeps it;
    * `logWrite_not_outside_trans`, `endOp_no_panic`, `commit_alone`: the
      'log_write outside of trans' and 'log.committing' panics are never
      reached, and `commit` runs with no operation in progress;
    * `too_big_reachable`: the 'too big a transaction' panic is reached. -/

namespace Xv6.Log

open Machine

/-- The fields of `struct log` that `begin_op`, `end_op` and `log_write`
    share under `log.lock`; `lh` is `lh.block[0..lh.n)`. -/
structure LogState where
  outstanding : Nat
  committing : Bool
  lh : List Nat
deriving DecidableEq, Repr

/-- `begin_op`: `none` while the caller must sleep and look again. -/
def beginOp (l : LogState) : Option LogState :=
  if l.committing then none
  else if l.lh.length + (l.outstanding + 1) * MAXOPBLOCKS > LOGBLOCKS then none
  else some { l with outstanding := l.outstanding + 1 }

/-- The absorption loop of `log_write`: `i` stops at the first slot that
    holds `b`, or at `lh.n`; slot `i` receives `b`, and `lh.n` grows when
    `i = lh.n`. -/
def absorb (lh : List Nat) (b : Nat) : List Nat :=
  if lh.idxOf b = lh.length then lh ++ [b] else lh.set (lh.idxOf b) b

/-- `log_write`: both checks come before the absorption loop. -/
def logWrite (l : LogState) (b : Nat) : Except String LogState :=
  if l.lh.length ≥ LOGBLOCKS then .error "too big a transaction"
  else if l.outstanding < 1 then .error "log_write outside of trans"
  else .ok { l with lh := absorb l.lh b }

/-- The part of `end_op` under `log.lock`; the flag is `do_commit`.  The
    C counter is an `int`; it is never decremented below one here. -/
def endOp (l : LogState) : Except String (LogState × Bool) :=
  let l := { l with outstanding := l.outstanding - 1 }
  if l.committing then .error "log.committing"
  else if l.outstanding = 0 then .ok ({ l with committing := true }, true)
  else .ok (l, false)

/-- `commit()` as it leaves the log state (`log.lh.n = 0`, also when there
    was nothing to write), then the locked tail of `end_op`. -/
def commitDone (l : LogState) : LogState :=
  { l with lh := [], committing := false }

/-- Where a process is in its file-system call. -/
inductive Phase where
  | idle
  /-- between `begin_op` and `end_op`, with the distinct blocks passed to
      `log_write` and how many of them were appended -/
  | inOp (written : List Nat) (fresh : Nat)
  /-- in `end_op`, running `commit` -/
  | inCommit
deriving DecidableEq, Repr

/-- What a process does next. -/
inductive Act where
  | beginOp
  | logWrite (b : Nat)
  | endOp
  | commit
deriving DecidableEq, Repr

/-- The log state and the phases of `n` processes. -/
structure Sys (n : Nat) where
  log : LogState
  proc : Fin n → Phase

/-- Boot: `initlog` leaves the log empty with nothing in progress. -/
def init (n : Nat) : Sys n := ⟨⟨0, false, []⟩, fun _ => .idle⟩

variable {n : Nat}

/-- One step of process `p`.  An operation may pass `log_write` a block it
    already wrote, or a new one while it has written fewer than
    `MAXOPBLOCKS`; other writes are not in any operation's program. -/
def step (s : Sys n) : Fin n × Act → Outcome (Sys n)
  | (p, .beginOp) =>
      match s.proc p, beginOp s.log with
      | .idle, some l => .next ⟨l, Function.update s.proc p (.inOp [] 0)⟩
      | _, _ => .blocked
  | (p, .logWrite b) =>
      match s.proc p with
      | .inOp ws fresh =>
          if b ∈ ws ∨ ws.length < MAXOPBLOCKS then
            match logWrite s.log b with
            | .ok l =>
                .next ⟨l, Function.update s.proc p
                  (.inOp (ws.insert b) (if b ∈ s.log.lh then fresh else fresh + 1))⟩
            | .error msg => .panic msg
          else .blocked
      | _ => .blocked
  | (p, .endOp) =>
      match s.proc p with
      | .inOp _ _ =>
          match endOp s.log with
          | .ok (l, doCommit) =>
              .next ⟨l, Function.update s.proc p (if doCommit then .inCommit else .idle)⟩
          | .error msg => .panic msg
      | _ => .blocked
  | (p, .commit) =>
      match s.proc p with
      | .inCommit => .next ⟨commitDone s.log, Function.update s.proc p .idle⟩
      | _ => .blocked

/-! ## The log functions -/

theorem beginOp_eq_some {l l' : LogState} :
    beginOp l = some l' ↔ l.committing = false ∧
      l.lh.length + (l.outstanding + 1) * MAXOPBLOCKS ≤ LOGBLOCKS ∧
      l' = { l with outstanding := l.outstanding + 1 } := by
  unfold beginOp
  cases hc : l.committing with
  | true => simp
  | false =>
      by_cases hfit : l.lh.length + (l.outstanding + 1) * MAXOPBLOCKS ≤ LOGBLOCKS
      · simp [hfit, eq_comm]
      · simp [Nat.lt_of_not_le hfit, hfit]

theorem absorb_of_mem {lh : List Nat} {b : Nat} (h : b ∈ lh) : absorb lh b = lh := by
  have hlt := List.idxOf_lt_length_of_mem h
  rw [absorb, if_neg (Nat.ne_of_lt hlt)]
  have hset := List.set_getElem_self hlt
  rwa [List.getElem_idxOf hlt] at hset

theorem absorb_of_not_mem {lh : List Nat} {b : Nat} (h : b ∉ lh) : absorb lh b = lh ++ [b] := by
  rw [absorb, if_pos (List.idxOf_eq_length h)]

theorem mem_absorb {lh : List Nat} {b x : Nat} : x ∈ absorb lh b ↔ x = b ∨ x ∈ lh := by
  by_cases hb : b ∈ lh
  · rw [absorb_of_mem hb]
    constructor
    · exact Or.inr
    · rintro (rfl | hx)
      · exact hb
      · exact hx
  · rw [absorb_of_not_mem hb, List.mem_append, List.mem_singleton]
    exact Or.comm

theorem nodup_absorb {lh : List Nat} (h : lh.Nodup) (b : Nat) : (absorb lh b).Nodup := by
  by_cases hb : b ∈ lh
  · rw [absorb_of_mem hb]
    exact h
  · rw [absorb_of_not_mem hb, List.nodup_append]
    exact ⟨h, List.nodup_singleton b, fun x hx y hy => by
      rw [List.mem_singleton] at hy
      rintro rfl
      exact hb (hy ▸ hx)⟩

theorem logWrite_eq_ok {l l' : LogState} {b : Nat} :
    logWrite l b = .ok l' ↔ l.lh.length < LOGBLOCKS ∧ 1 ≤ l.outstanding ∧
      l' = { l with lh := absorb l.lh b } := by
  unfold logWrite
  by_cases hfull : l.lh.length ≥ LOGBLOCKS
  · simp only [if_pos hfull, reduceCtorEq, false_iff]
    omega
  · by_cases hout : l.outstanding < 1
    · simp only [if_neg hfull, if_pos hout, reduceCtorEq, false_iff]
      omega
    · simp only [if_neg hfull, if_neg hout, Except.ok.injEq]
      constructor
      · rintro rfl
        exact ⟨by omega, by omega, rfl⟩
      · rintro ⟨-, -, rfl⟩
        rfl

/-- `log_write` fails with 'log_write outside of trans' only when no
    operation is in progress. -/
theorem logWrite_of_outside {l : LogState} (b : Nat) (hroom : l.lh.length < LOGBLOCKS)
    (hout : l.outstanding = 0) : logWrite l b = .error "log_write outside of trans" := by
  unfold logWrite
  rw [if_neg (by omega), if_pos (by omega)]

theorem logWrite_outside {l : LogState} {b : Nat}
    (h : logWrite l b = .error "log_write outside of trans") : l.outstanding < 1 := by
  unfold logWrite at h
  by_cases hfull : l.lh.length ≥ LOGBLOCKS
  · simp [hfull] at h
  · by_cases hout : l.outstanding < 1
    · exact hout
    · simp [hfull, hout] at h

theorem endOp_eq_error {l : LogState} {msg : String} (h : endOp l = .error msg) :
    l.committing = true := by
  unfold endOp at h
  cases hc : l.committing with
  | true => rfl
  | false =>
      by_cases h0 : l.outstanding - 1 = 0 <;> simp [hc, h0] at h

/-- What the locked part of `end_op` leaves, field by field. -/
theorem endOp_eq_ok {l l' : LogState} {c : Bool} (h : endOp l = .ok (l', c)) :
    l.committing = false ∧ l'.outstanding = l.outstanding - 1 ∧ l'.lh = l.lh ∧
      c = decide (l.outstanding - 1 = 0) ∧ l'.committing = c := by
  unfold endOp at h
  cases hc : l.committing with
  | true => simp [hc] at h
  | false =>
      simp only [hc, Bool.false_eq_true, if_false] at h
      by_cases h0 : l.outstanding - 1 = 0
      · simp only [h0, if_true, Except.ok.injEq, Prod.mk.injEq] at h
        obtain ⟨rfl, rfl⟩ := h
        exact ⟨rfl, h0.symm ▸ rfl, rfl, by simp [h0], rfl⟩
      · simp only [h0, if_false, Except.ok.injEq, Prod.mk.injEq] at h
        obtain ⟨rfl, rfl⟩ := h
        exact ⟨rfl, rfl, rfl, by simp [h0], rfl⟩

/-! ## One inversion lemma per action -/

variable {s s' : Sys n} {p : Fin n}

theorem step_beginOp (h : step s (p, .beginOp) = .next s') :
    s.proc p = .idle ∧ s.log.committing = false ∧
      s.log.lh.length + (s.log.outstanding + 1) * MAXOPBLOCKS ≤ LOGBLOCKS ∧
      s'.log = { s.log with outstanding := s.log.outstanding + 1 } ∧
      s'.proc = Function.update s.proc p (.inOp [] 0) := by
  simp only [step] at h
  split at h
  · next l hp hl =>
      obtain ⟨hc, hfit, rfl⟩ := beginOp_eq_some.mp hl
      cases h
      exact ⟨hp, hc, hfit, rfl, rfl⟩
  · cases h

theorem step_logWrite {b : Nat} (h : step s (p, .logWrite b) = .next s') :
    ∃ ws fresh, s.proc p = .inOp ws fresh ∧ (b ∈ ws ∨ ws.length < MAXOPBLOCKS) ∧
      s.log.lh.length < LOGBLOCKS ∧ 1 ≤ s.log.outstanding ∧
      s'.log = { s.log with lh := absorb s.log.lh b } ∧ s'.proc = Function.update s.proc p
        (.inOp (ws.insert b) (if b ∈ s.log.lh then fresh else fresh + 1)) := by
  simp only [step] at h
  split at h
  · next ws fresh hp =>
      split at h
      · next hbudget =>
          split at h
          · next l hl =>
              obtain ⟨hfull, hout, rfl⟩ := logWrite_eq_ok.mp hl
              cases h
              exact ⟨ws, fresh, hp, hbudget, hfull, hout, rfl, rfl⟩
          · cases h
      · cases h
  · cases h

theorem step_logWrite_panic {b : Nat} {msg : String}
    (h : step s (p, .logWrite b) = .panic msg) :
    ∃ ws fresh, s.proc p = .inOp ws fresh ∧ logWrite s.log b = .error msg := by
  simp only [step] at h
  split at h
  · next ws fresh hp =>
      split at h
      · split at h
        · cases h
        · next m hm =>
            cases h
            exact ⟨ws, fresh, hp, hm⟩
      · cases h
  · cases h

theorem step_endOp (h : step s (p, .endOp) = .next s') :
    ∃ ws fresh, s.proc p = .inOp ws fresh ∧ s.log.committing = false ∧
      s'.log.outstanding = s.log.outstanding - 1 ∧ s'.log.lh = s.log.lh ∧
      s'.log.committing = decide (s.log.outstanding - 1 = 0) ∧
      s'.proc = Function.update s.proc p
        (if s.log.outstanding - 1 = 0 then .inCommit else .idle) := by
  simp only [step] at h
  split at h
  · next ws fresh hp =>
      split at h
      · next l c hl =>
          obtain ⟨hc, hout, hlh, rfl, hcomm⟩ := endOp_eq_ok hl
          cases h
          refine ⟨ws, fresh, hp, hc, hout, hlh, hcomm, ?_⟩
          by_cases h0 : s.log.outstanding - 1 = 0 <;> simp [h0]
      · cases h
  · cases h

theorem step_endOp_panic {msg : String} (h : step s (p, .endOp) = .panic msg) :
    ∃ ws fresh, s.proc p = .inOp ws fresh ∧ s.log.committing = true := by
  simp only [step] at h
  split at h
  · next ws fresh hp =>
      split at h
      · cases h
      · next m hm => exact ⟨ws, fresh, hp, endOp_eq_error hm⟩
  · cases h

theorem step_commit (h : step s (p, .commit) = .next s') :
    s.proc p = .inCommit ∧ s'.log = commitDone s.log ∧
      s'.proc = Function.update s.proc p .idle := by
  simp only [step] at h
  split at h
  · next hp =>
      cases h
      exact ⟨hp, rfl, rfl⟩
  · cases h

/-! ## The invariant -/

/-- The log space an admitted operation still holds: its `MAXOPBLOCKS`
    less the blocks it has appended. -/
def Phase.reserved : Phase → Nat
  | .inOp _ fresh => MAXOPBLOCKS - fresh
  | _ => 0

/-- One for a process inside an operation. -/
def Phase.active : Phase → Nat
  | .inOp _ _ => 1
  | _ => 0

/-- The unused reservations of all admitted operations. -/
def reserved (s : Sys n) : Nat := ∑ p, (s.proc p).reserved

/-- The number of processes inside an operation. -/
def active (s : Sys n) : Nat := ∑ p, (s.proc p).active

/-- What holds between any two steps of the log. -/
structure LogInv (s : Sys n) : Prop where
  nodup : s.log.lh.Nodup
  outstanding_eq : s.log.outstanding = active s
  fits : s.log.lh.length + reserved s ≤ LOGBLOCKS
  written : ∀ p ws fresh, s.proc p = .inOp ws fresh →
    ws.Nodup ∧ ws.length ≤ MAXOPBLOCKS ∧ fresh ≤ ws.length ∧ ∀ b ∈ ws, b ∈ s.log.lh
  committing_iff : s.log.committing = true ↔ ∃ p, s.proc p = .inCommit
  committer : ∀ p, s.proc p = .inCommit →
    s.log.outstanding = 0 ∧ ∀ q, s.proc q = .inCommit → q = p

theorem Phase.reserved_le (ph : Phase) : ph.reserved ≤ MAXOPBLOCKS * ph.active := by
  cases ph with
  | idle => exact Nat.le_refl 0
  | inOp ws fresh =>
      show MAXOPBLOCKS - fresh ≤ MAXOPBLOCKS * 1
      omega
  | inCommit => exact Nat.le_refl 0

theorem reserved_le_active (s : Sys n) : reserved s ≤ MAXOPBLOCKS * active s := by
  rw [reserved, active, Finset.mul_sum]
  exact Finset.sum_le_sum fun p _ => (s.proc p).reserved_le

theorem one_le_active {ws : List Nat} {fresh : Nat} (h : s.proc p = .inOp ws fresh) :
    1 ≤ active s := by
  have hle := Finset.single_le_sum (f := fun q => (s.proc q).active)
    (fun _ _ => Nat.zero_le _) (Finset.mem_univ p)
  rw [h] at hle
  exact hle

theorem reserved_update {v : Phase} (hproc : s'.proc = Function.update s.proc p v) :
    reserved s' + (s.proc p).reserved = reserved s + v.reserved := by
  rw [reserved, hproc]
  exact sum_update_add _ _ _ _

theorem active_update {v : Phase} (hproc : s'.proc = Function.update s.proc p v) :
    active s' + (s.proc p).active = active s + v.active := by
  rw [active, hproc]
  exact sum_update_add _ _ _ _

/-- While an operation is in progress nobody commits. -/
theorem LogInv.not_inCommit (hI : LogInv s) {ws : List Nat} {fresh : Nat}
    (hp : s.proc p = .inOp ws fresh) (q : Fin n) : s.proc q ≠ .inCommit := by
  intro hq
  have h0 := (hI.committer q hq).1
  have h1 := one_le_active hp
  rw [hI.outstanding_eq] at h0
  omega

/-- After process `p` moves to a phase other than committing, a committing
    process was committing before. -/
theorem inCommit_of_update {f : Fin n → Phase} {v : Phase} (hv : v ≠ .inCommit) {q : Fin n}
    (hq : Function.update f p v q = .inCommit) : q ≠ p ∧ f q = .inCommit := by
  by_cases hqp : q = p
  · subst hqp
    rw [Function.update_self] at hq
    exact absurd hq hv
  · rw [Function.update_of_ne hqp] at hq
    exact ⟨hqp, hq⟩

/-! ## Every step keeps the invariant -/

theorem logInv_beginOp (hI : LogInv s) (h : step s (p, .beginOp) = .next s') : LogInv s' := by
  obtain ⟨hp, hc, hfit, hlog, hproc⟩ := step_beginOp h
  -- with the flag clear, nobody commits
  have hnone : ∀ q, s.proc q ≠ .inCommit := fun q hq => by
    have hq' := hI.committing_iff.mpr ⟨q, hq⟩
    rw [hc] at hq'
    cases hq'
  have hres := reserved_update hproc
  have hact := active_update hproc
  have hle := reserved_le_active s
  have hout := hI.outstanding_eq
  rw [hp] at hres hact
  simp only [Phase.reserved, Phase.active, Nat.sub_zero] at hres hact
  have hout' : s'.log.outstanding = s.log.outstanding + 1 := by rw [hlog]
  have hlh : s'.log.lh = s.log.lh := by rw [hlog]
  constructor
  · rw [hlh]
    exact hI.nodup
  · omega
  · rw [hlh]
    rw [Nat.add_mul, Nat.one_mul, hout, Nat.mul_comm] at hfit
    omega
  · intro q ws fresh hq
    rw [hproc] at hq
    by_cases hqp : q = p
    · subst hqp
      rw [Function.update_self] at hq
      cases hq
      simp
    · rw [Function.update_of_ne hqp] at hq
      rw [hlh]
      exact hI.written q ws fresh hq
  · rw [hlog, hproc]
    show s.log.committing = true ↔ _
    rw [hc]
    simp only [Bool.false_eq_true, false_iff, not_exists]
    intro q hq
    exact hnone q (inCommit_of_update (by simp) hq).2
  · intro q hq
    rw [hproc] at hq
    exact absurd (inCommit_of_update (by simp) hq).2 (hnone q)

theorem logInv_logWrite {b : Nat} (hI : LogInv s) (h : step s (p, .logWrite b) = .next s') :
    LogInv s' := by
  obtain ⟨ws, fresh, hp, hbudget, -, -, hlog, hproc⟩ := step_logWrite h
  obtain ⟨hnd, hlen, hfr, hsub⟩ := hI.written p ws fresh hp
  have hnone := hI.not_inCommit hp
  have hc : s.log.committing = false := by
    cases hc : s.log.committing with
    | false => rfl
    | true => exact absurd (hI.committing_iff.mp hc).choose_spec (hnone _)
  have hres := reserved_update hproc
  have hact := active_update hproc
  rw [hp] at hres hact
  simp only [Phase.reserved, Phase.active] at hres hact
  have hout := hI.outstanding_eq
  have hfits := hI.fits
  have hout' : s'.log.outstanding = s.log.outstanding := by rw [hlog]
  have hlh : s'.log.lh = absorb s.log.lh b := by rw [hlog]
  constructor
  · rw [hlh]
    exact nodup_absorb hI.nodup b
  · omega
  · rw [hlh]
    by_cases hb : b ∈ s.log.lh
    · -- absorbed: the log and the reservation stay as they were
      simp only [hb, if_true] at hres
      rw [absorb_of_mem hb]
      omega
    · -- appended: the new block comes out of `p`'s reservation
      have hbws : b ∉ ws := fun hbw => hb (hsub b hbw)
      have hroom : ws.length < MAXOPBLOCKS := hbudget.resolve_left hbws
      simp only [hb, if_false] at hres
      rw [absorb_of_not_mem hb, List.length_append, List.length_singleton]
      omega
  · intro q ws' fresh' hq
    rw [hproc] at hq
    rw [hlh]
    by_cases hqp : q = p
    · subst hqp
      rw [Function.update_self] at hq
      cases hq
      refine ⟨hnd.insert, ?_, ?_, fun x hx => mem_absorb.mpr ?_⟩
      · by_cases hbw : b ∈ ws
        · rw [List.length_insert_of_mem hbw]
          exact hlen
        · rw [List.length_insert_of_not_mem hbw]
          exact hbudget.resolve_left hbw
      · by_cases hb : b ∈ s.log.lh
        · simp only [hb, if_true]
          exact Nat.le_trans hfr List.length_le_length_insert
        · have hbws : b ∉ ws := fun hbw => hb (hsub b hbw)
          simp only [hb, if_false, List.length_insert_of_not_mem hbws]
          omega
      · rcases List.mem_insert_iff.mp hx with rfl | hx
        · exact Or.inl rfl
        · exact Or.inr (hsub x hx)
    · rw [Function.update_of_ne hqp] at hq
      obtain ⟨h1, h2, h3, h4⟩ := hI.written q ws' fresh' hq
      exact ⟨h1, h2, h3, fun x hx => mem_absorb.mpr (Or.inr (h4 x hx))⟩
  · rw [hlog, hproc]
    show s.log.committing = true ↔ _
    rw [hc]
    simp only [Bool.false_eq_true, false_iff, not_exists]
    intro q hq
    exact hnone q (inCommit_of_update (by simp) hq).2
  · intro q hq
    rw [hproc] at hq
    exact absurd (inCommit_of_update (by simp) hq).2 (hnone q)

theorem logInv_endOp (hI : LogInv s) (h : step s (p, .endOp) = .next s') : LogInv s' := by
  obtain ⟨ws, fresh, hp, -, hout', hlh, hcomm, hproc⟩ := step_endOp h
  have hnone := hI.not_inCommit hp
  have h1 := one_le_active hp
  have hres := reserved_update hproc
  have hact := active_update hproc
  rw [hp] at hres hact
  have hout := hI.outstanding_eq
  have hfits := hI.fits
  have hv : ∀ v : Phase, v = (if s.log.outstanding - 1 = 0 then .inCommit else .idle) →
      v.reserved = 0 ∧ v.active = 0 := by
    intro v hv
    by_cases h0 : s.log.outstanding - 1 = 0 <;> simp [hv, h0, Phase.reserved, Phase.active]
  obtain ⟨hvr, hva⟩ := hv _ rfl
  rw [hvr] at hres
  rw [hva] at hact
  simp only [Phase.reserved, Phase.active] at hres hact
  constructor
  · rw [hlh]
    exact hI.nodup
  · omega
  · rw [hlh]
    omega
  · intro q ws' fresh' hq
    rw [hproc] at hq
    by_cases hqp : q = p
    · subst hqp
      rw [Function.update_self] at hq
      by_cases h0 : s.log.outstanding - 1 = 0 <;> simp [h0] at hq
    · rw [Function.update_of_ne hqp] at hq
      rw [hlh]
      exact hI.written q ws' fresh' hq
  · by_cases h0 : s.log.outstanding - 1 = 0
    · -- the last operation out commits
      rw [hcomm, hproc]
      simp only [h0, decide_true, true_iff]
      exact ⟨p, by simp⟩
    · rw [hcomm, hproc]
      simp only [h0, decide_false, Bool.false_eq_true, false_iff, not_exists]
      intro q hq
      exact hnone q (inCommit_of_update (by simp) hq).2
  · intro q hq
    rw [hproc] at hq
    by_cases h0 : s.log.outstanding - 1 = 0
    · refine ⟨by omega, fun r hr => ?_⟩
      rw [hproc] at hr
      -- only `p` can be committing: nobody was before
      have hq' : q = p := by
        by_contra hqp
        rw [Function.update_of_ne hqp] at hq
        exact hnone q hq
      have hr' : r = p := by
        by_contra hrp
        rw [Function.update_of_ne hrp] at hr
        exact hnone r hr
      rw [hq', hr']
    · exact absurd (inCommit_of_update (by simp [h0]) hq).2 (hnone q)

theorem logInv_commit (hI : LogInv s) (h : step s (p, .commit) = .next s') : LogInv s' := by
  obtain ⟨hp, hlog, hproc⟩ := step_commit h
  obtain ⟨hout0, huniq⟩ := hI.committer p hp
  have hres := reserved_update hproc
  have hact := active_update hproc
  rw [hp] at hres hact
  simp only [Phase.reserved, Phase.active] at hres hact
  have hle := reserved_le_active s
  have hout := hI.outstanding_eq
  -- nobody is inside an operation while `p` commits
  have hnoop : ∀ q ws fresh, s.proc q ≠ .inOp ws fresh := fun q ws fresh hq => by
    have := one_le_active hq
    omega
  have hnone : ∀ q, s'.proc q = .inCommit → False := by
    intro q hq
    rw [hproc] at hq
    obtain ⟨hqp, hq'⟩ := inCommit_of_update (by simp) hq
    exact hqp (huniq q hq')
  constructor
  · rw [hlog]
    exact List.nodup_nil
  · rw [hlog]
    show s.log.outstanding = _
    omega
  · rw [hlog]
    show 0 + _ ≤ LOGBLOCKS
    rw [hout0] at hout
    rw [← hout, Nat.mul_zero] at hle
    omega
  · intro q ws fresh hq
    rw [hproc] at hq
    by_cases hqp : q = p
    · subst hqp
      rw [Function.update_self] at hq
      cases hq
    · rw [Function.update_of_ne hqp] at hq
      exact absurd hq (hnoop q ws fresh)
  · rw [hlog]
    show false = true ↔ _
    simp only [Bool.false_eq_true, false_iff, not_exists]
    exact hnone
  · intro q hq
    exact absurd hq (hnone q)

theorem logInv_init : LogInv (init n) where
  nodup := List.nodup_nil
  outstanding_eq := by simp [active, init, Phase.active]
  fits := by simp [reserved, init, Phase.reserved]
  written := fun _ _ _ h => by cases h
  committing_iff := by simp [init]
  committer := fun _ h => by cases h

theorem logInv_step {a : Fin n × Act} (hI : LogInv s) (h : step s a = .next s') : LogInv s' := by
  obtain ⟨p, act⟩ := a
  cases act with
  | beginOp => exact logInv_beginOp hI h
  | logWrite b => exact logInv_logWrite hI h
  | endOp => exact logInv_endOp hI h
  | commit => exact logInv_commit hI h

/-- **THE LOG INVARIANT** holds in every state that any interleaving of
    well-bracketed operations reaches. -/
theorem logInv_reachable (h : Reachable (init n) step s) : LogInv s :=
  h.inv logInv_init fun _ _ _ hI hs => logInv_step hI hs

/-! ## What the invariant rules out -/

/-- `log.committing` is set only with no operation outstanding. -/
theorem outstanding_of_committing (h : Reachable (init n) step s)
    (hc : s.log.committing = true) : s.log.outstanding = 0 := by
  have hI := logInv_reachable h
  obtain ⟨p, hp⟩ := hI.committing_iff.mp hc
  exact (hI.committer p hp).1

/-- **NO 'log_write outside of trans'**: a write inside an operation
    always finds `outstanding ≥ 1`. -/
theorem logWrite_not_outside_trans (h : Reachable (init n) step s) (b : Nat) :
    step s (p, .logWrite b) ≠ .panic "log_write outside of trans" := by
  intro hpanic
  obtain ⟨ws, fresh, hp, herr⟩ := step_logWrite_panic hpanic
  have hI := logInv_reachable h
  have h1 := one_le_active hp
  have h2 := logWrite_outside herr
  rw [hI.outstanding_eq] at h2
  omega

/-- After `begin_op`, a `log_write` finds its operation. -/
theorem logWrite_inside_after_begin :
    ∃ s, Reachable (init 1) step s ∧ step s (0, .logWrite 7) ≠ .panic "log_write outside of trans" := by
  obtain ⟨s, hs⟩ : ∃ s, replay step (init 1) [(0, .beginOp)] = some s := ⟨_, rfl⟩
  have hreach := replay_reachable .init hs
  exact ⟨s, hreach, logWrite_not_outside_trans hreach 7⟩

/-- **NO 'log.committing'**: `end_op` never fails. -/
theorem endOp_no_panic (h : Reachable (init n) step s) (msg : String) :
    step s (p, .endOp) ≠ .panic msg := by
  intro hpanic
  obtain ⟨ws, fresh, hp, hc⟩ := step_endOp_panic hpanic
  have hI := logInv_reachable h
  obtain ⟨q, hq⟩ := hI.committing_iff.mp hc
  exact hI.not_inCommit hp q hq

/-- With two operations in progress, the first `end_op` does not fail. -/
theorem endOp_no_panic_two_ops :
    ∃ s, Reachable (init 2) step s ∧ ∀ msg, step s (0, .endOp) ≠ .panic msg := by
  obtain ⟨s, hs⟩ : ∃ s, replay step (init 2) [(0, .beginOp), (1, .beginOp)] = some s := ⟨_, rfl⟩
  have hreach := replay_reachable .init hs
  exact ⟨s, hreach, endOp_no_panic hreach⟩

/-- **COMMIT RUNS ALONE**: while a process commits, `committing` is set,
    nobody else commits and no process is inside an operation. -/
theorem commit_alone (h : Reachable (init n) step s) (hp : s.proc p = .inCommit) :
    s.log.committing = true ∧ (∀ q, s.proc q = .inCommit → q = p)
      ∧ ∀ q ws fresh, s.proc q ≠ .inOp ws fresh := by
  have hI := logInv_reachable h
  obtain ⟨hout0, huniq⟩ := hI.committer p hp
  refine ⟨hI.committing_iff.mpr ⟨p, hp⟩, huniq, fun q ws fresh hq => ?_⟩
  have := one_le_active hq
  rw [hI.outstanding_eq] at hout0
  omega

/-- The last `end_op` of two operations commits alone. -/
theorem commit_alone_after_two_ops :
    ∃ s, Reachable (init 2) step s ∧ s.proc 1 = .inCommit ∧ s.log.committing = true ∧
      (∀ q, s.proc q = .inCommit → q = 1) ∧ ∀ q ws fresh, s.proc q ≠ .inOp ws fresh := by
  obtain ⟨s, hs⟩ : ∃ s, replay step (init 2)
      [(0, .beginOp), (1, .beginOp), (0, .logWrite 7), (0, .endOp), (1, .endOp)] = some s :=
    ⟨_, rfl⟩
  have hreach := replay_reachable .init hs
  have hp : s.proc 1 = .inCommit := by
    cases hs
    rfl
  exact ⟨s, hreach, hp, commit_alone hreach hp⟩

/-! ## The reservation does not cover an absorbed write into a full log -/

/-- Three processes begin an operation each, which `begin_op` admits since
    `0 + 3 * MAXOPBLOCKS ≤ LOGBLOCKS`; then each logs ten blocks of its own. -/
def fullLogTrace : List (Fin 3 × Act) :=
  [(0, .beginOp), (1, .beginOp), (2, .beginOp)]
    ++ (List.range' 1 10).map (fun b => (0, .logWrite b))
    ++ (List.range' 11 10).map (fun b => (1, .logWrite b))
    ++ (List.range' 21 10).map (fun b => (2, .logWrite b))

/-- **'too big a transaction' IS REACHED**: after `fullLogTrace` the log
    holds `LOGBLOCKS` blocks, and process 0 logging block 1 again (a
    write the log would absorb, within its ten distinct blocks) panics,
    because `log_write` tests for a full log before it looks for the block. -/
theorem too_big_reachable :
    ∃ s, Reachable (init 3) step s ∧
      step s (0, .logWrite 1) = .panic "too big a transaction" :=
  reachable_panic_of_panicAfter fullLogTrace (by decide)

end Xv6.Log
