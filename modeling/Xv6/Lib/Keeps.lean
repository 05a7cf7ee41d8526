import Mathlib

/-! # Invariants of state programs that may fail

    A program of `StateT σ (Except ε)` keeps a predicate `P` of the state
    when every run that starts in a state satisfying `P` and returns ends
    in one.  A run that fails says nothing, so a program that only fails
    keeps every predicate.

    The rules follow the program's syntax: `Keeps.bind`, `Keeps.ite`,
    `Keeps.dite`, `Keeps.forM` and the leaves `Keeps.pure`, `Keeps.get`,
    `Keeps.modify`, `Keeps.throw`, so that a proof that a program keeps a
    predicate unfolds the program once and applies one rule per
    construct.  `Keeps.run_eq` and `Keeps.and` are how the results are
    used and combined.

    `run_bind_eq_ok` and `run_bind_of_eq_ok` take a run of `m >>= f` apart
    and put it together: a proof about one step of a program cites the
    step's own run lemma and never unfolds it.

    `OkLe m m'`: `m'` returns whatever `m` returns, as a loop on more
    fuel does; `OkLe.bind`, `OkLe.ite` and `OkLe.throw` prove it by the
    same syntax-directed steps.

    `exists_of_checkOk` and `eq_error_of_panicMsg` turn a computed check of
    a concrete run into the run's result. -/

namespace StateExcept

variable {σ ε α β : Type}

/-- `m` keeps `P`. -/
def Keeps (P : σ → Prop) (m : StateT σ (Except ε) α) : Prop :=
  ∀ s a s', P s → m.run s = .ok (a, s') → P s'

variable {P Q : σ → Prop}

theorem Keeps.pure (a : α) : Keeps P (Pure.pure a : StateT σ (Except ε) α) := by
  intro s b s' hs h
  simp only [StateT.run_pure] at h
  cases h
  exact hs

theorem Keeps.get : Keeps P (MonadState.get : StateT σ (Except ε) σ) := by
  intro s b s' hs h
  simp only [StateT.run_get] at h
  cases h
  exact hs

theorem Keeps.modify {f : σ → σ} (hf : ∀ s, P s → P (f s)) :
    Keeps P (MonadState.modifyGet (fun s => ((), f s)) : StateT σ (Except ε) Unit) := by
  intro s b s' hs h
  simp only [StateT.run_modifyGet] at h
  cases h
  exact hf s hs

theorem Keeps.set {t : σ} (ht : P t) : Keeps P (MonadStateOf.set t : StateT σ (Except ε) PUnit) := by
  intro s b s' _ h
  simp only [StateT.run_set] at h
  cases h
  exact ht

theorem Keeps.throw (e : ε) : Keeps P (MonadExcept.throw e : StateT σ (Except ε) α) := by
  intro s b s' _ h
  exact nomatch h

theorem Keeps.bind {m : StateT σ (Except ε) α} {f : α → StateT σ (Except ε) β}
    (hm : Keeps P m) (hf : ∀ a, Keeps P (f a)) : Keeps P (m >>= f) := by
  intro s b s' hs h
  rw [StateT.run_bind] at h
  cases hrun : m.run s with
  | error e =>
      rw [hrun] at h
      cases h
  | ok r =>
      rw [hrun] at h
      exact hf r.1 r.2 b s' (hm s r.1 r.2 hs hrun) h

theorem Keeps.ite {c : Prop} [Decidable c] {t e : StateT σ (Except ε) α}
    (ht : Keeps P t) (he : Keeps P e) : Keeps P (if c then t else e) := by
  by_cases hc : c
  · rw [if_pos hc]; exact ht
  · rw [if_neg hc]; exact he

theorem Keeps.dite {c : Prop} [Decidable c] {t : c → StateT σ (Except ε) α}
    {e : ¬c → StateT σ (Except ε) α} (ht : ∀ h, Keeps P (t h)) (he : ∀ h, Keeps P (e h)) :
    Keeps P (if h : c then t h else e h) := by
  by_cases hc : c
  · rw [dif_pos hc]; exact ht hc
  · rw [dif_neg hc]; exact he hc

theorem Keeps.map {m : StateT σ (Except ε) α} {f : α → β} (hm : Keeps P m) :
    Keeps P (f <$> m) := by
  rw [map_eq_pure_bind]
  exact hm.bind fun a => Keeps.pure (f a)

theorem Keeps.forM {γ : Type} {f : γ → StateT σ (Except ε) PUnit} :
    ∀ {l : List γ}, (∀ x ∈ l, Keeps P (f x)) → Keeps P (l.forM f)
  | [], _ => Keeps.pure _
  | x :: l, h => by
      show Keeps P (f x >>= fun _ => l.forM f)
      exact (h x List.mem_cons_self).bind fun _ =>
        Keeps.forM fun y hy => h y (List.mem_cons_of_mem x hy)

theorem Keeps.and {m : StateT σ (Except ε) α} (hP : Keeps P m) (hQ : Keeps Q m) :
    Keeps (fun s => P s ∧ Q s) m :=
  fun s a s' hs h => ⟨hP s a s' hs.1 h, hQ s a s' hs.2 h⟩

theorem Keeps.run_eq {m : StateT σ (Except ε) α} (hm : Keeps P m) {s s' : σ} {a : α}
    (hs : P s) (h : m.run s = .ok (a, s')) : P s' :=
  hm s a s' hs h

/-- A returning run of `m >>= f` is a returning run of `m` followed by one
    of `f`. -/
theorem run_bind_eq_ok {m : StateT σ (Except ε) α} {f : α → StateT σ (Except ε) β} {s s' : σ}
    {b : β} (h : (m >>= f).run s = .ok (b, s')) :
    ∃ a s₁, m.run s = .ok (a, s₁) ∧ (f a).run s₁ = .ok (b, s') := by
  rw [StateT.run_bind] at h
  cases hm : m.run s with
  | error e =>
      rw [hm] at h
      cases h
  | ok r => exact ⟨r.1, r.2, rfl, by rw [hm] at h; exact h⟩

theorem run_bind_of_eq_ok {m : StateT σ (Except ε) α} {f : α → StateT σ (Except ε) β} {s s₁ : σ}
    {a : α} (h : m.run s = .ok (a, s₁)) : (m >>= f).run s = (f a).run s₁ := by
  rw [StateT.run_bind, h]
  rfl

/-- A returned result is passed on: with `StateT.run_bind`, a run lemma
    stated with `.ok` rewrites a whole sequence of steps under `simp`. -/
@[simp] theorem ok_bind {a : α} {f : α → Except ε β} : (Except.ok a >>= f) = f a := rfl

/-- **LOOP RULE**, total: a loop each of whose rounds returns from a state
    of `P` into one returns from a state of `P` into one. -/
theorem forM_run_ok {γ : Type} {f : γ → StateT σ (Except ε) PUnit}
    (hf : ∀ x s, P s → ∃ s', (f x).run s = .ok (⟨⟩, s') ∧ P s') :
    ∀ (l : List γ) {s : σ}, P s → ∃ s', (l.forM f).run s = .ok (⟨⟩, s') ∧ P s'
  | [], s, hs => ⟨s, rfl, hs⟩
  | x :: l, s, hs => by
      obtain ⟨s₁, h₁, hs₁⟩ := hf x s hs
      obtain ⟨s₂, h₂, hs₂⟩ := forM_run_ok hf l hs₁
      refine ⟨s₂, ?_, hs₂⟩
      show (f x >>= fun _ => l.forM f).run s = _
      rw [run_bind_of_eq_ok h₁]
      exact h₂

/-- **LOOP RULE** over the rounds still to run: an invariant of the
    remaining list and the state, which each round carries from `x :: l`
    to `l`. -/
theorem forM_run_ok_rest {γ : Type} {f : γ → StateT σ (Except ε) PUnit} {I : List γ → σ → Prop}
    (hf : ∀ x l s, I (x :: l) s → ∃ s', (f x).run s = .ok (⟨⟩, s') ∧ I l s') :
    ∀ (l : List γ) {s : σ}, I l s → ∃ s', (l.forM f).run s = .ok (⟨⟩, s') ∧ I [] s'
  | [], s, hs => ⟨s, rfl, hs⟩
  | x :: l, s, hs => by
      obtain ⟨s₁, h₁, hs₁⟩ := hf x l s hs
      obtain ⟨s₂, h₂, hs₂⟩ := forM_run_ok_rest hf l hs₁
      refine ⟨s₂, ?_, hs₂⟩
      show (f x >>= fun _ => l.forM f).run s = _
      rw [run_bind_of_eq_ok h₁]
      exact h₂

/-! ## Programs that fail less -/

/-- `m'` returns whatever `m` returns: it may only fail where `m` does. -/
def OkLe (m m' : StateT σ (Except ε) α) : Prop :=
  ∀ s a s', m.run s = .ok (a, s') → m'.run s = .ok (a, s')

theorem OkLe.refl (m : StateT σ (Except ε) α) : OkLe m m := fun _ _ _ h => h

theorem OkLe.bind {m m' : StateT σ (Except ε) α} {f f' : α → StateT σ (Except ε) β} (hm : OkLe m m')
    (hf : ∀ a, OkLe (f a) (f' a)) : OkLe (m >>= f) (m' >>= f') := by
  intro s b s' h
  obtain ⟨a, s₁, h₁, h₂⟩ := run_bind_eq_ok h
  rw [run_bind_of_eq_ok (hm s a s₁ h₁)]
  exact hf a s₁ b s' h₂

theorem OkLe.ite {c : Prop} [Decidable c] {t t' e e' : StateT σ (Except ε) α} (ht : OkLe t t')
    (he : OkLe e e') : OkLe (if c then t else e) (if c then t' else e') := by
  by_cases hc : c
  · rw [if_pos hc, if_pos hc]
    exact ht
  · rw [if_neg hc, if_neg hc]
    exact he

/-- A program that fails is below every program. -/
theorem OkLe.throw {m : StateT σ (Except ε) α} (e : ε) : OkLe (MonadExcept.throw e) m := by
  intro s a s' h
  exact nomatch h

/-! ## Checking a computed result -/

/-- The result of `e`, if it returns, and whether it satisfies `P`. -/
def checkOk {α : Type} (P : α → Prop) [DecidablePred P] (e : Except String α) : Option Bool :=
  e.toOption.map fun a => decide (P a)

theorem exists_of_checkOk {α : Type} {P : α → Prop} [DecidablePred P] {e : Except String α}
    (h : checkOk P e = some true) : ∃ a, e = .ok a ∧ P a := by
  cases e with
  | error msg => simp [checkOk, Except.toOption] at h
  | ok a =>
      simp only [checkOk, Except.toOption, Option.map_some, Option.some.injEq,
        decide_eq_true_eq] at h
      exact ⟨a, rfl, h⟩

/-- The message of a run that panics. -/
def panicMsg {α : Type} : Except String α → Option String
  | .error msg => some msg
  | .ok _ => none

theorem eq_error_of_panicMsg {α : Type} {e : Except String α} {msg : String}
    (h : panicMsg e = some msg) : e = .error msg := by
  cases e with
  | error m =>
      simp only [panicMsg, Option.some.injEq] at h
      rw [h]
  | ok a => simp [panicMsg] at h

end StateExcept
