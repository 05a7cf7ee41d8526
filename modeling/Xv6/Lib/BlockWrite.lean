import Mathlib

/-! # Atomic block writes and crash prefixes

    A disk is a map from block numbers to block contents.  A program that
    writes the disk is a list of whole-block writes, each atomic; the
    contents a write stores may depend on the disk as it stands when the
    write is issued (a copy from another block, a header rewritten in
    place).  A crash after `k` writes leaves the disk that the first `k`
    writes produce.

    * `runWrites_append`, `runWrites_take_append`: how runs and crash
      prefixes split over the phases of a program;
    * `runWrites_frame`: a block that no write targets keeps its contents;
    * `runWrites_take_inv`: an invariant that every write keeps holds after
      every crash prefix;
    * `runWrites_take_seq`: crash prefixes of two phases run one after the
      other;
    * `crashRuns_inv`: the same for a program restarted after each crash,
      whose writes are chosen from the disk it starts on. -/

namespace BlockWrite

variable {β : Type}

/-- One atomic whole-block write: the block it targets, and its new
    contents as a function of the disk at the moment of the write. -/
structure BWrite (β : Type) where
  blockno : Nat
  data : (Nat → β) → β

/-- The disk after one write. -/
def BWrite.exec (w : BWrite β) (d : Nat → β) : Nat → β :=
  Function.update d w.blockno (w.data d)

/-- The disk after a list of writes, issued in order. -/
def runWrites : List (BWrite β) → (Nat → β) → Nat → β
  | [], d => d
  | w :: ws, d => runWrites ws (w.exec d)

/-- A program restarted after crashes: the `i`-th start runs the first
    `ks[i]` writes of what the program chooses on the disk it starts from. -/
def crashRuns (prog : (Nat → β) → List (BWrite β)) : List Nat → (Nat → β) → Nat → β
  | [], d => d
  | k :: ks, d => crashRuns prog ks (runWrites ((prog d).take k) d)

@[simp]
theorem BWrite.exec_self (w : BWrite β) (d : Nat → β) :
    w.exec d w.blockno = w.data d :=
  Function.update_self _ _ _

@[simp]
theorem BWrite.exec_of_ne {w : BWrite β} {b : Nat} (h : b ≠ w.blockno)
    (d : Nat → β) : w.exec d b = d b :=
  Function.update_of_ne h _ _

@[simp]
theorem runWrites_nil (d : Nat → β) : runWrites [] d = d := rfl

@[simp]
theorem runWrites_cons (w : BWrite β) (ws : List (BWrite β)) (d : Nat → β) :
    runWrites (w :: ws) d = runWrites ws (w.exec d) := rfl

theorem runWrites_append (ws vs : List (BWrite β)) (d : Nat → β) :
    runWrites (ws ++ vs) d = runWrites vs (runWrites ws d) := by
  induction ws generalizing d with
  | nil => rfl
  | cons w ws ih => exact ih (w.exec d)

/-- A crash inside `ws ++ vs` splits into a crash prefix of `ws` followed
    by a (possibly empty) crash prefix of `vs`. -/
theorem runWrites_take_append (ws vs : List (BWrite β)) (k : Nat) (d : Nat → β) :
    runWrites ((ws ++ vs).take k) d
      = runWrites (vs.take (k - ws.length)) (runWrites (ws.take k) d) := by
  rw [List.take_append, runWrites_append]

/-- Once every write of `ws` has been issued, a longer crash prefix is the
    whole run. -/
theorem runWrites_take_of_le {ws : List (BWrite β)} {k : Nat}
    (h : ws.length ≤ k) (d : Nat → β) :
    runWrites (ws.take k) d = runWrites ws d := by
  rw [List.take_of_length_le h]

/-- **FRAME**: a block that no write targets keeps its contents. -/
theorem runWrites_frame {ws : List (BWrite β)} {b : Nat}
    (h : ∀ w ∈ ws, w.blockno ≠ b) (d : Nat → β) : runWrites ws d b = d b := by
  induction ws generalizing d with
  | nil => rfl
  | cons w ws ih =>
      rw [runWrites_cons, ih (fun v hv => h v (List.mem_cons_of_mem _ hv))]
      exact BWrite.exec_of_ne (Ne.symm (h w List.mem_cons_self)) d

/-- **INVARIANT RULE**: a property that every write of `ws` keeps holds
    after the whole run. -/
theorem runWrites_inv {P : (Nat → β) → Prop} {ws : List (BWrite β)}
    (hstep : ∀ w ∈ ws, ∀ d, P d → P (w.exec d)) {d : Nat → β} (hd : P d) :
    P (runWrites ws d) := by
  induction ws generalizing d with
  | nil => exact hd
  | cons w ws ih =>
      exact ih (fun v hv => hstep v (List.mem_cons_of_mem _ hv))
        (hstep w List.mem_cons_self d hd)

/-- **CRASH RULE**: a property that every write of `ws` keeps holds after
    every crash prefix of `ws`. -/
theorem runWrites_take_inv {P : (Nat → β) → Prop} {ws : List (BWrite β)}
    (hstep : ∀ w ∈ ws, ∀ d, P d → P (w.exec d)) (k : Nat) {d : Nat → β}
    (hd : P d) : P (runWrites (ws.take k) d) :=
  runWrites_inv (fun w hw => hstep w (List.mem_of_mem_take hw)) hd

/-- A crash prefix of a single write is nothing or the write. -/
theorem runWrites_take_single {P : (Nat → β) → Prop} {w : BWrite β} {d : Nat → β}
    (hd : P d) (hw : P (w.exec d)) : ∀ k, P (runWrites ([w].take k) d)
  | 0 => hd
  | _ + 1 => by rw [List.take_succ_cons, List.take_nil]; exact hw

/-- **SEQUENCE RULE**: if every crash prefix of `ws` has `P` and the whole
    of `ws` ends in `Q`, from which every crash prefix of `vs` has `P`, then
    every crash prefix of `ws ++ vs` has `P`. -/
theorem runWrites_take_seq {P Q : (Nat → β) → Prop} {ws vs : List (BWrite β)}
    {d : Nat → β} (hws : ∀ k, P (runWrites (ws.take k) d)) (hQ : Q (runWrites ws d))
    (hvs : ∀ d', Q d' → ∀ k, P (runWrites (vs.take k) d')) (k : Nat) :
    P (runWrites ((ws ++ vs).take k) d) := by
  rw [runWrites_take_append]
  by_cases hk : ws.length ≤ k
  · rw [runWrites_take_of_le hk]
    exact hvs _ hQ _
  · rw [Nat.sub_eq_zero_of_le (by omega), List.take_zero, runWrites_nil]
    exact hws k

/-- **RESTART RULE**: a property kept by every crash prefix of the
    program, started on any disk that has it, holds after any sequence of
    crashed restarts. -/
theorem crashRuns_inv {P : (Nat → β) → Prop}
    (prog : (Nat → β) → List (BWrite β))
    (hrun : ∀ d, P d → ∀ k, P (runWrites ((prog d).take k) d)) :
    ∀ (ks : List Nat) {d : Nat → β}, P d → P (crashRuns prog ks d) := by
  intro ks
  induction ks with
  | nil => intro d hd; exact hd
  | cons k ks ih => intro d hd; exact ih (hrun d hd k)

end BlockWrite
