import Xv6.Lib.BlockWrite
import Xv6.Param

/-! # The on-disk log: commit and recovery as block writes

    `log.c` keeps a physical redo log: a header block at `log.start` naming
    up to `LOGBLOCKS` home blocks, followed by their logged copies.
    `commit` issues its writes in four phases (`write_log`, `write_head`,
    `install_trans`, `write_head`) and `recover_from_log` replays the
    blocks the header names and clears it.  Each phase is the list of
    `bwrite`s it issues, so a crash is any prefix of them.

    * `CrashState`: the three shapes a disk can have while a transaction
      commits (log empty and nothing installed, log empty and everything
      installed, log holding the whole transaction);
    * `commit_crashState`, `recover_crashState`: every crash prefix of a
      commit, and of a recovery, leaves a disk of one of these shapes;
    * `recoverFromLog_of_crashState`: recovery from such a disk installs
      all of the transaction or none of it;
    * `recoverFromLog_idem`: recovering twice is recovering once. -/

namespace Xv6.Log

open BlockWrite

variable {β : Type}

/-- `struct logheader` laid over the data of the header block: `read` is
    what `read_head` copies out (`n` and `block[0..n)`), `write lh b` is the
    block after `write_head` stores `lh` over `b`. -/
structure HeadView (β : Type) where
  read : β → List Nat
  write : List Nat → β → β
  read_write : ∀ lh b, lh.length ≤ LOGBLOCKS → read (write lh b) = lh
  write_write : ∀ lh b, write lh (write lh b) = write lh b

/-- `struct logheader` in a block read as its array of 4-byte words: word
    0 is `n`, word `i + 1` is `block[i]`.  `write_head` stores `n` and
    `block[0..n)` and leaves the words after them as they were. -/
def wordHead : HeadView (Nat → Nat) where
  read b := (List.range (b 0)).map fun i => b (i + 1)
  write lh b j := if j = 0 then lh.length else if j ≤ lh.length then lh.getD (j - 1) 0 else b j
  read_write lh b _ := by
    refine List.ext_getElem (by simp) fun i h₁ h₂ => ?_
    simp only [List.length_map, List.length_range, if_pos] at h₁
    simp [h₁]
  write_write lh b := by
    funext j
    by_cases h0 : j = 0
    · simp [h0]
    · by_cases h1 : j ≤ lh.length <;> simp [h0, h1]

/-- `write_log`: log block `start + tail + 1` receives the cached copy of
    `block[tail]`, for every `tail` from the given one on. -/
def writeLog (start : Nat) (cache : Nat → β) : Nat → List Nat → List (BWrite β)
  | _, [] => []
  | tail, b :: bs =>
      ⟨start + tail + 1, fun _ => cache b⟩ :: writeLog start cache (tail + 1) bs

/-- `write_head`: the header block rewritten in place with `lh`. -/
def writeHead (V : HeadView β) (start : Nat) (lh : List Nat) : BWrite β :=
  ⟨start, fun d => V.write lh (d start)⟩

/-- `install_trans`: home block `block[tail]` receives the contents of log
    block `start + tail + 1`.  During a commit that block is read through
    the buffer cache, which holds what `write_log` has just written. -/
def installTrans (start : Nat) : Nat → List Nat → List (BWrite β)
  | _, [] => []
  | tail, b :: bs => ⟨b, fun d => d (start + tail + 1)⟩ :: installTrans start (tail + 1) bs

/-- `commit`: the writes it issues for the transaction `lh`, whose blocks
    hold `cache` in the buffer cache. -/
def commit (V : HeadView β) (start : Nat) (lh : List Nat) (cache : Nat → β) :
    List (BWrite β) :=
  if 0 < lh.length then
    writeLog start cache 0 lh ++ [writeHead V start lh] ++ installTrans start 0 lh
      ++ [writeHead V start []]
  else []

/-- The writes of `recover_from_log`, fixed by `read_head` on the disk it
    starts from: `install_trans(1)` and a cleared header. -/
def recoverWrites (V : HeadView β) (start : Nat) (d : Nat → β) : List (BWrite β) :=
  installTrans start 0 (V.read (d start)) ++ [writeHead V start []]

/-- `recover_from_log` run to completion. -/
def recoverFromLog (V : HeadView β) (start : Nat) (d : Nat → β) : Nat → β :=
  runWrites (recoverWrites V start d) d

/-- Log blocks from `tail` on hold the cached copies of `bs`. -/
def Logged (start : Nat) (cache d : Nat → β) : Nat → List Nat → Prop
  | _, [] => True
  | tail, b :: bs => d (start + tail + 1) = cache b ∧ Logged start cache d (tail + 1) bs

/-- The disks a crash can leave while `lh` commits over `d₀`. -/
def CrashState (V : HeadView β) (start : Nat) (lh : List Nat) (cache d₀ d : Nat → β) :
    Prop :=
  (V.read (d start) = [] ∧ ((∀ b ∈ lh, d b = d₀ b) ∨ (∀ b ∈ lh, d b = cache b)))
    ∨ (V.read (d start) = lh ∧ Logged start cache d 0 lh)

/-! ## Where each phase writes -/

theorem writeLog_blockno {start tail : Nat} {cache : Nat → β} {bs : List Nat}
    {w : BWrite β} (hw : w ∈ writeLog start cache tail bs) :
    start + tail < w.blockno ∧ w.blockno ≤ start + tail + bs.length := by
  induction bs generalizing tail with
  | nil => exact nomatch hw
  | cons b bs ih =>
      rcases List.mem_cons.mp hw with rfl | hw
      · simp only [List.length_cons]
        omega
      · have := ih hw
        simp only [List.length_cons]
        omega

theorem installTrans_blockno {start tail : Nat} {bs : List Nat} {w : BWrite β}
    (hw : w ∈ installTrans start tail bs) : w.blockno ∈ bs := by
  induction bs generalizing tail with
  | nil => exact nomatch hw
  | cons b bs ih =>
      rcases List.mem_cons.mp hw with rfl | hw
      · exact List.mem_cons_self
      · exact List.mem_cons_of_mem _ (ih hw)

@[simp]
theorem writeHead_blockno (V : HeadView β) (start : Nat) (lh : List Nat) :
    (writeHead V start lh).blockno = start := rfl

@[simp]
theorem writeHead_exec_self (V : HeadView β) (start : Nat) (lh : List Nat)
    (d : Nat → β) : (writeHead V start lh).exec d start = V.write lh (d start) :=
  BWrite.exec_self _ d

/-! ## The logged copies -/

/-- A write outside the log blocks of `bs` keeps them. -/
theorem Logged.exec {start tail : Nat} {cache d : Nat → β} {bs : List Nat}
    (h : Logged start cache d tail bs) {w : BWrite β}
    (hw : w.blockno ≤ start + tail ∨ start + tail + bs.length < w.blockno) :
    Logged start cache (w.exec d) tail bs := by
  induction bs generalizing tail with
  | nil => trivial
  | cons b bs ih =>
      obtain ⟨hb, hrest⟩ := h
      simp only [List.length_cons] at hw
      refine ⟨?_, ih hrest (by omega)⟩
      rw [BWrite.exec_of_ne (by omega)]
      exact hb

/-- After `write_log`, the log blocks hold the cached copies. -/
theorem logged_writeLog (start : Nat) (cache : Nat → β) (tail : Nat) (bs : List Nat)
    (d : Nat → β) : Logged start cache (runWrites (writeLog start cache tail bs) d) tail bs := by
  induction bs generalizing tail d with
  | nil => trivial
  | cons b bs ih =>
      refine ⟨?_, ih (tail + 1) _⟩
      rw [writeLog, runWrites_cons, runWrites_frame]
      · exact BWrite.exec_self _ d
      · intro w hw
        have := writeLog_blockno hw
        omega

/-- `install_trans` from a disk whose log holds `bs` puts every cached
    copy at home, provided no home block is a log block. -/
theorem installTrans_installed {start tail : Nat} {cache : Nat → β} {bs : List Nat}
    (hout : ∀ x ∈ bs, x ≤ start + tail ∨ start + tail + bs.length < x) {d : Nat → β}
    (hlog : Logged start cache d tail bs) :
    ∀ x ∈ bs, runWrites (installTrans start tail bs) d x = cache x := by
  induction bs generalizing tail d with
  | nil => intro x hx; exact nomatch hx
  | cons b bs ih =>
      obtain ⟨hb, hrest⟩ := hlog
      have hout' : ∀ x ∈ bs, x ≤ start + (tail + 1) ∨ start + (tail + 1) + bs.length < x := by
        intro x hx
        have := hout x (List.mem_cons_of_mem _ hx)
        simp only [List.length_cons] at this
        omega
      have hb_out := hout b List.mem_cons_self
      simp only [List.length_cons] at hb_out
      have hrest' : Logged start cache
          (BWrite.exec ⟨b, fun d => d (start + tail + 1)⟩ d) (tail + 1) bs :=
        hrest.exec (by simp only; omega)
      intro x hx
      rw [installTrans, runWrites_cons]
      by_cases hxs : x ∈ bs
      · exact ih hout' hrest' x hxs
      · -- `x` is `b`, written first and never again
        have hxb : x = b := (List.mem_cons.mp hx).resolve_right hxs
        subst hxb
        rw [runWrites_frame (fun w hw h => hxs (by rw [← h]; exact installTrans_blockno hw))]
        rw [BWrite.exec_self]
        exact hb

/-! ## Commit and recovery keep the crash shapes -/

section Crash

variable (V : HeadView β) (start : Nat) {lh : List Nat} {cache d₀ : Nat → β}

/-- Every home block lies outside the log: before its header, or past the
    `LOGBLOCKS` copies that follow it. -/
def HomesOutside (start : Nat) (lh : List Nat) : Prop :=
  ∀ x ∈ lh, x < start ∨ start + LOGBLOCKS < x

/-- The log holds the whole transaction. -/
def LogFull (V : HeadView β) (start : Nat) (lh : List Nat) (cache d : Nat → β) : Prop :=
  V.read (d start) = lh ∧ Logged start cache d 0 lh

variable {V start}

theorem crashState_of_logFull {d : Nat → β} (h : LogFull V start lh cache d) :
    CrashState V start lh cache d₀ d :=
  .inr h

/-- An `install_trans` write keeps a full log. -/
theorem logFull_installTrans (hlen : lh.length ≤ LOGBLOCKS) (hhome : HomesOutside start lh)
    {d : Nat → β} (h : LogFull V start lh cache d) :
    ∀ w ∈ installTrans start 0 lh, LogFull V start lh cache (w.exec d) := by
  intro w hw
  have hx := hhome _ (installTrans_blockno hw)
  refine ⟨?_, h.2.exec (by omega)⟩
  rw [BWrite.exec_of_ne (by omega)]
  exact h.1

/-- From a full log, `install_trans` puts the whole transaction at home
    and leaves the log full. -/
theorem installTrans_of_logFull (hlen : lh.length ≤ LOGBLOCKS) (hhome : HomesOutside start lh)
    {d : Nat → β} (h : LogFull V start lh cache d) :
    LogFull V start lh cache (runWrites (installTrans start 0 lh) d)
      ∧ ∀ x ∈ lh, runWrites (installTrans start 0 lh) d x = cache x := by
  refine ⟨runWrites_inv (P := LogFull V start lh cache)
    (fun w hw _ hd => logFull_installTrans hlen hhome hd w hw) h, ?_⟩
  refine installTrans_installed (fun x hx => ?_) h.2
  have := hhome x hx
  omega

/-- Clearing the header over installed home blocks leaves them installed
    and the log empty. -/
theorem clear_of_installed (hhome : HomesOutside start lh) {d : Nat → β}
    (h : ∀ x ∈ lh, d x = cache x) :
    CrashState V start lh cache d₀ ((writeHead V start []).exec d) := by
  refine .inl ⟨?_, .inr fun x hx => ?_⟩
  · rw [writeHead_exec_self]
    exact V.read_write [] _ (Nat.zero_le _)
  · have := hhome x hx
    rw [BWrite.exec_of_ne (by simp only [writeHead_blockno]; omega)]
    exact h x hx

/-- **COMMIT**: every crash prefix of `commit` leaves a crash shape. -/
theorem commit_crashState (hclean : V.read (d₀ start) = []) (hlen : lh.length ≤ LOGBLOCKS)
    (hhome : HomesOutside start lh) (k : Nat) :
    CrashState V start lh cache d₀ (runWrites ((commit V start lh cache).take k) d₀) := by
  unfold commit
  split
  · -- `write_log`: header still clear, nothing at home yet
    let Before : (Nat → β) → Prop := fun d =>
      V.read (d start) = [] ∧ ∀ x ∈ lh, d x = d₀ x
    have hbefore : ∀ w ∈ writeLog start cache 0 lh, ∀ d, Before d → Before (w.exec d) := by
      intro w hw d hd
      have hw' := writeLog_blockno hw
      refine ⟨?_, fun x hx => ?_⟩
      · rw [BWrite.exec_of_ne (by omega)]
        exact hd.1
      · have := hhome x hx
        rw [BWrite.exec_of_ne (by omega)]
        exact hd.2 x hx
    have hlog : Before (runWrites (writeLog start cache 0 lh) d₀) ∧
        Logged start cache (runWrites (writeLog start cache 0 lh) d₀) 0 lh :=
      ⟨runWrites_inv hbefore ⟨hclean, fun _ _ => rfl⟩, logged_writeLog start cache 0 lh d₀⟩
    -- `write_head(lh)`: the commit point
    have hfull : LogFull V start lh cache
        ((writeHead V start lh).exec (runWrites (writeLog start cache 0 lh) d₀)) := by
      refine ⟨?_, hlog.2.exec (by simp only [writeHead_blockno]; omega)⟩
      rw [writeHead_exec_self]
      exact V.read_write lh _ hlen
    refine runWrites_take_seq (Q := fun d => LogFull V start lh cache d ∧
      ∀ x ∈ lh, d x = cache x) ?_ ?_ ?_ k
    · refine runWrites_take_seq (Q := LogFull V start lh cache) ?_ ?_ ?_
      · refine runWrites_take_seq (Q := fun d => Before d ∧ Logged start cache d 0 lh)
          (fun k => .inl ⟨(runWrites_take_inv hbefore k ⟨hclean, fun _ _ => rfl⟩).1,
            .inl (runWrites_take_inv hbefore k ⟨hclean, fun _ _ => rfl⟩).2⟩) hlog ?_
        intro d hd
        exact runWrites_take_single (.inl ⟨hd.1.1, .inl hd.1.2⟩) (.inr (by
          refine ⟨?_, hd.2.exec (by simp only [writeHead_blockno]; omega)⟩
          rw [writeHead_exec_self]
          exact V.read_write lh _ hlen))
      · rw [runWrites_append]
        exact hfull
      · intro d hd k
        exact .inr (runWrites_take_inv (P := LogFull V start lh cache)
          (fun w hw _ h => logFull_installTrans hlen hhome h w hw) k hd)
    · rw [runWrites_append, runWrites_append]
      exact installTrans_of_logFull hlen hhome hfull
    · intro d hd
      exact runWrites_take_single (.inr hd.1) (clear_of_installed hhome hd.2)
  · -- an empty transaction writes nothing
    simp only [List.take_nil, runWrites_nil]
    exact .inl ⟨hclean, .inl fun _ _ => rfl⟩

/-- **RECOVERY**: every crash prefix of `recover_from_log`, started on a
    crash shape, leaves a crash shape. -/
theorem recover_crashState (hlen : lh.length ≤ LOGBLOCKS) (hhome : HomesOutside start lh)
    {d : Nat → β} (h : CrashState V start lh cache d₀ d) (k : Nat) :
    CrashState V start lh cache d₀ (runWrites ((recoverWrites V start d).take k) d) := by
  rcases h with ⟨hclean, hhomes⟩ | hfull
  · -- an empty log: only the header is rewritten
    have hne : ∀ x ∈ lh, x ≠ (writeHead V start []).blockno := by
      intro x hx
      have := hhome x hx
      simp only [writeHead_blockno]
      omega
    rw [recoverWrites, hclean, installTrans, List.nil_append]
    refine runWrites_take_single (.inl ⟨hclean, hhomes⟩) (.inl ⟨?_, ?_⟩) k
    · rw [writeHead_exec_self]
      exact V.read_write [] _ (Nat.zero_le _)
    · rcases hhomes with hold | hnew
      · exact .inl fun x hx => by rw [BWrite.exec_of_ne (hne x hx)]; exact hold x hx
      · exact .inr fun x hx => by rw [BWrite.exec_of_ne (hne x hx)]; exact hnew x hx
  · -- a full log: replay it, then clear the header
    rw [recoverWrites, hfull.1]
    refine runWrites_take_seq (Q := fun d => LogFull V start lh cache d ∧
      ∀ x ∈ lh, d x = cache x) ?_ (installTrans_of_logFull hlen hhome hfull) ?_ k
    · intro k
      exact .inr (runWrites_take_inv (P := LogFull V start lh cache)
        (fun w hw _ h => logFull_installTrans hlen hhome h w hw) k hfull)
    · intro d hd
      exact runWrites_take_single (.inr hd.1) (clear_of_installed hhome hd.2)

variable (V start) in
/-- Recovery ends with a cleared header. -/
theorem recoverFromLog_start (d : Nat → β) :
    recoverFromLog V start d start
      = V.write [] (runWrites (installTrans start 0 (V.read (d start))) d start) := by
  rw [recoverFromLog, recoverWrites, runWrites_append, runWrites_cons, runWrites_nil,
    writeHead_exec_self]

variable (V start) in
theorem read_recoverFromLog (d : Nat → β) : V.read (recoverFromLog V start d start) = [] := by
  rw [recoverFromLog_start]
  exact V.read_write [] _ (Nat.zero_le _)

/-- **ALL OR NOTHING**: recovery from a crash shape leaves every home block
    of the transaction as it was before, or every one installed. -/
theorem recoverFromLog_of_crashState (hlen : lh.length ≤ LOGBLOCKS)
    (hhome : HomesOutside start lh) {d : Nat → β} (h : CrashState V start lh cache d₀ d) :
    (∀ x ∈ lh, recoverFromLog V start d x = d₀ x)
      ∨ ∀ x ∈ lh, recoverFromLog V start d x = cache x := by
  have hc := recover_crashState hlen hhome h (recoverWrites V start d).length
  rw [runWrites_take_of_le (Nat.le_refl _)] at hc
  rcases hc with ⟨-, hhomes⟩ | ⟨hread, -⟩
  · exact hhomes
  · -- the header was cleared, so the transaction was empty
    have hnil : lh = [] := by
      rw [← hread]
      exact read_recoverFromLog V start d
    subst hnil
    exact .inl fun x hx => nomatch hx

end Crash

variable (V : HeadView β) (start : Nat)

/-- **IDEMPOTENCE**: a second recovery finds the header cleared and
    rewrites it with what it already holds. -/
theorem recoverFromLog_idem (d : Nat → β) :
    recoverFromLog V start (recoverFromLog V start d) = recoverFromLog V start d := by
  set e := recoverFromLog V start d with he
  have hwrites : recoverWrites V start e = [writeHead V start []] := by
    rw [recoverWrites, read_recoverFromLog V start d]
    rfl
  have hhead : V.write [] (e start) = e start := by
    rw [he, recoverFromLog_start, V.write_write]
  rw [recoverFromLog, hwrites, runWrites_cons, runWrites_nil]
  show Function.update e start (V.write [] (e start)) = e
  rw [hhead, Function.update_eq_self]

/-- **CRASH ATOMICITY OF THE LOG.**  A transaction `lh` of at most
    `LOGBLOCKS` home blocks outside the log commits over a disk whose log is
    empty.  Crash after any `k` of commit's writes, then crash again after
    the first `ks[i]` writes of each of any number of recoveries, then
    recover: every home block holds its old contents, or every one its
    logged contents, and recovering again changes nothing. -/
theorem recoverFromLog_atomic (lh : List Nat) (cache d₀ : Nat → β)
    (hclean : V.read (d₀ start) = []) (hlen : lh.length ≤ LOGBLOCKS)
    (hhome : ∀ x ∈ lh, x < start ∨ start + LOGBLOCKS < x) (k : Nat) (ks : List Nat) :
    let d := recoverFromLog V start
      (crashRuns (recoverWrites V start) ks (runWrites ((commit V start lh cache).take k) d₀))
    ((∀ x ∈ lh, d x = d₀ x) ∨ (∀ x ∈ lh, d x = cache x))
      ∧ recoverFromLog V start d = d := by
  intro d
  refine ⟨recoverFromLog_of_crashState hlen hhome ?_, recoverFromLog_idem V start _⟩
  exact crashRuns_inv (P := CrashState V start lh cache d₀) (recoverWrites V start)
    (fun _ h k => recover_crashState hlen hhome h k) ks (commit_crashState hclean hlen hhome k)

/-- A two-block transaction at blocks 40 and 41 over a zeroed disk with
    the log at block 2, crashed after its header write and again in the
    middle of a recovery. -/
theorem recoverFromLog_atomic_two_blocks :
    (wordHead.read ((fun _ _ => 0 : Nat → Nat → Nat) 2) = [] ∧ [40, 41].length ≤ LOGBLOCKS
      ∧ ∀ x ∈ [40, 41], x < 2 ∨ 2 + LOGBLOCKS < x) ∧
    let d := recoverFromLog wordHead 2 (crashRuns (recoverWrites wordHead 2) [1]
      (runWrites ((commit wordHead 2 [40, 41] (fun _ _ => 7)).take 3) (fun _ _ => 0)))
    ((∀ x ∈ [40, 41], d x = (fun _ _ => 0 : Nat → Nat → Nat) x)
      ∨ (∀ x ∈ [40, 41], d x = (fun _ _ => 7 : Nat → Nat → Nat) x))
      ∧ recoverFromLog wordHead 2 d = d :=
  ⟨⟨rfl, by decide, by decide⟩,
    recoverFromLog_atomic wordHead 2 [40, 41] (fun _ _ => 7) (fun _ _ => 0) rfl (by decide)
      (by decide) 3 [1]⟩

end Xv6.Log
