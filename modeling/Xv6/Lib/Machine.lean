import Mathlib

/-! # Machines whose steps move, block or fail

    A machine takes steps by action labels.  A step moves to a new state,
    blocks (the action is not enabled: a process sleeps, or its program does
    not take that action now), or fails with a message (a kernel `panic`).
    The reachable states are those that moving steps reach from the initial
    one; a failure is reached when some reachable state fails on some action.

    * `Reachable.inv`: an invariant kept by every moving step holds in every
      reachable state;
    * `replay_inv`: what the steps of a trace keep holds at its end;
    * `replay_reachable`, `reachable_panic_of_panicAfter`: a trace replayed
      from a reachable state ends in a reachable state, which is how a
      reachable failure is exhibited (`Outcome.failure` reads the message
      of a step taken there);
    * `sum_update_add`: a per-process sum after one process changes phase
      (or a sum over any finite set of objects after one changes). -/

namespace Machine

/-- What one step does. -/
inductive Outcome (σ : Type) where
  | next (s : σ)
  | blocked
  | panic (msg : String)
deriving DecidableEq, Repr

variable {σ α : Type}

/-- States reached from `init` by steps that move. -/
inductive Reachable (init : σ) (step : σ → α → Outcome σ) : σ → Prop where
  | init : Reachable init step init
  | step {s s' : σ} (a : α) : Reachable init step s → step s a = .next s' →
      Reachable init step s'

/-- **INVARIANT RULE**: what holds initially and is kept by every moving
    step holds in every reachable state. -/
theorem Reachable.inv {init : σ} {step : σ → α → Outcome σ} {I : σ → Prop}
    (h0 : I init) (hstep : ∀ s a s', I s → step s a = .next s' → I s') {s : σ}
    (h : Reachable init step s) : I s := by
  induction h with
  | init => exact h0
  | step a _ hs ih => exact hstep _ a _ ih hs

/-- Replay a trace of actions; `none` as soon as one does not move. -/
def replay (step : σ → α → Outcome σ) : σ → List α → Option σ
  | s, [] => some s
  | s, a :: as =>
      match step s a with
      | .next s' => replay step s' as
      | _ => none

theorem replay_reachable {init : σ} {step : σ → α → Outcome σ} :
    ∀ {as : List α} {s s' : σ}, Reachable init step s → replay step s as = some s' →
      Reachable init step s'
  | [], _, _, hs, h => by
      cases h
      exact hs
  | a :: as, s, s', hs, h => by
      unfold replay at h
      split at h
      · next s₁ hstep => exact replay_reachable (Reachable.step a hs hstep) h
      · cases h

/-- **RUN RULE**: what every moving step of a trace keeps holds at the end
    of its replay. -/
theorem replay_inv {step : σ → α → Outcome σ} {P : σ → Prop} :
    ∀ {as : List α} {s s' : σ}, (∀ t a t', a ∈ as → P t → step t a = .next t' → P t') →
      P s → replay step s as = some s' → P s'
  | [], _, _, _, hs, h => by
      cases h
      exact hs
  | a :: as, s, s', hstep, hs, h => by
      unfold replay at h
      split at h
      · next s₁ hs₁ =>
          exact replay_inv (fun t b t' hb => hstep t b t' (List.mem_cons_of_mem a hb))
            (hstep s a s₁ List.mem_cons_self hs hs₁) h
      · cases h

/-- The message of the failure of action `a` after replaying `as`, if
    the replay moves all the way and `a` then fails. -/
def panicAfter (step : σ → α → Outcome σ) (init : σ) (as : List α) (a : α) :
    Option String :=
  (replay step init as).bind fun s =>
    match step s a with
    | .panic msg => some msg
    | _ => none

/-- A failure found by replaying a trace is reached. -/
theorem reachable_panic_of_panicAfter {init : σ} {step : σ → α → Outcome σ}
    (as : List α) {a : α} {msg : String} (h : panicAfter step init as a = some msg) :
    ∃ s, Reachable init step s ∧ step s a = .panic msg := by
  unfold panicAfter at h
  cases hr : replay step init as with
  | none => simp [hr] at h
  | some s =>
      rw [hr, Option.bind_some] at h
      refine ⟨s, replay_reachable .init hr, ?_⟩
      split at h
      · next m hm => rw [hm, Option.some.inj h]
      · cases h

/-- A sum over processes (or any finite set of objects) after `p` moves
    from `f p` to `v`. -/
theorem sum_update_add {ι : Type} [Fintype ι] [DecidableEq ι] (g : α → Nat) (f : ι → α) (p : ι)
    (v : α) :
    (∑ x, g (Function.update f p v x)) + g (f p) = (∑ x, g (f x)) + g v := by
  have hupd : (fun x => g (Function.update f p v x)) = Function.update (fun x => g (f x)) p (g v) := by
    funext x
    by_cases hx : x = p
    · subst hx
      simp
    · simp [Function.update_of_ne hx]
  have h₁ : (∑ x, g (Function.update f p v x))
      = g v + ∑ x ∈ Finset.univ \ {p}, g (f x) := by
    rw [hupd, Finset.sum_update_of_mem (Finset.mem_univ p)]
  have h₂ : (∑ x, g (f x)) = g (f p) + ∑ x ∈ Finset.univ \ {p}, g (f x) := by
    rw [Finset.sdiff_singleton_eq_erase]
    exact (Finset.add_sum_erase _ (fun x => g (f x)) (Finset.mem_univ p)).symm
  omega

end Machine
