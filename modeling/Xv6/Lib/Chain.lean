import Mathlib

/-! # Chains of links

    Facts about `List.IsChain` that a linked structure in memory needs:
    a list of nodes is a chain of links when each node's pointer names the
    node after it.

    * `isChain_and`: two chains over one list are a chain of both;
    * `isChain_eq_frame`: a chain of pointers survives a change of the
      pointers it does not read, those of every node but the last;
    * `lt_getLast_of_mem_dropLast`: in an ascending list every node before
      the last is below it;
    * `eq_of_next_eq`: where no node is named twice after the first, two
      nodes with the same pointer are one node;
    * `isChain_rotate`, `exists_cycle`: a cycle through `h` read from
      another of its nodes is a cycle through that node, over the same
      nodes. -/

namespace Chain

variable {α : Type}

theorem isChain_and {R S : α → α → Prop} :
    ∀ {l : List α}, List.IsChain R l → List.IsChain S l → List.IsChain (fun a b => R a b ∧ S a b) l
  | [], _, _ => .nil
  | [a], _, _ => .singleton a
  | _ :: _ :: _, hR, hS => by
      rw [List.isChain_cons_cons] at hR hS ⊢
      exact ⟨⟨hR.1, hS.1⟩, isChain_and hR.2 hS.2⟩

/-- **FRAME**: a chain of pointers `f` is one of `g` when `g` agrees with
    `f` on every node the links leave from. -/
theorem isChain_eq_frame {f g : α → α} {l : List α} (h : List.IsChain (fun x y => f x = y) l)
    (hfg : ∀ x ∈ l.dropLast, g x = f x) : List.IsChain (fun x y => g x = y) l := by
  induction l with
  | nil => exact .nil
  | cons x l ih =>
    cases l with
    | nil => exact .singleton x
    | cons y l =>
      rw [List.isChain_cons_cons] at h ⊢
      refine ⟨by rw [hfg x (by simp)]; exact h.1, ih h.2 fun z hz => hfg z ?_⟩
      rw [List.dropLast_cons_cons]
      exact List.mem_cons_of_mem _ hz

theorem lt_getLast_of_mem_dropLast :
    ∀ {l : List Nat} (hl : l ≠ []), List.IsChain (· < ·) l → ∀ x ∈ l.dropLast, x < l.getLast hl
  | [], hl, _, _, _ => absurd rfl hl
  | [_], _, _, _, hx => by simp at hx
  | x :: y :: l, _, h, z, hz => by
      have hyl : y < (y :: l).getLast (by simp) ∨ l = [] := by
        rcases l with _ | ⟨w, l⟩
        · exact .inr rfl
        · exact .inl (lt_getLast_of_mem_dropLast (by simp) h.tail y (by simp))
      rw [List.isChain_cons_cons] at h
      rw [List.getLast_cons_cons]
      rw [List.dropLast_cons_cons, List.mem_cons] at hz
      rcases hz with rfl | hz
      · rcases hyl with hyl | rfl
        · exact Nat.lt_trans h.1 hyl
        · exact h.1
      · exact lt_getLast_of_mem_dropLast (by simp) h.2 z hz

/-- The head of a list with `a` put at its end. -/
theorem head_append_singleton (l : List α) (a : α) : (l ++ [a]).head (by simp) = l.headD a := by
  cases l <;> rfl

section Next

variable {f : α → α}

/-- A link leaves every node but the last for a node after it. -/
theorem next_mem_tail : ∀ {l : List α}, List.IsChain (fun x y => f x = y) l → ∀ x ∈ l.dropLast, f x ∈ l.tail
  | [], _, _, hx => by simp at hx
  | [_], _, _, hx => by simp at hx
  | x :: y :: l, h, z, hz => by
      rw [List.isChain_cons_cons] at h
      rw [List.dropLast_cons_cons, List.mem_cons] at hz
      rcases hz with rfl | hz
      · rw [h.1]
        exact List.mem_cons_self
      · exact List.mem_cons_of_mem _ (next_mem_tail h.2 z hz)

/-- **ONE PREDECESSOR**: in a chain of links that names no node twice
    after its first, two nodes whose links agree are one node. -/
theorem eq_of_next_eq : ∀ {l : List α}, List.IsChain (fun x y => f x = y) l → l.tail.Nodup →
    ∀ x ∈ l.dropLast, ∀ y ∈ l.dropLast, f x = f y → x = y
  | [], _, _, _, hx, _, _, _ => by simp at hx
  | [_], _, _, _, hx, _, _, _ => by simp at hx
  | a :: b :: l, h, hn, x, hx, y, hy, hxy => by
      rw [List.isChain_cons_cons] at h
      rw [List.tail_cons, List.nodup_cons] at hn
      rw [List.dropLast_cons_cons, List.mem_cons] at hx hy
      -- a node after `a` links into `l`, where `b`, the node `a` links to, is not
      have hin : ∀ z ∈ (b :: l).dropLast, f z ≠ f a := fun z hz he =>
        hn.1 (by rw [← h.1, ← he]; exact next_mem_tail h.2 z hz)
      rcases hx with rfl | hx <;> rcases hy with rfl | hy
      · rfl
      · exact absurd hxy.symm (hin y hy)
      · exact absurd hxy (hin x hx)
      · exact eq_of_next_eq h.2 (by simpa using hn.2) x hx y hy hxy

end Next

/-- **ROTATION**: the cycle `h, P, x, Q, h` read from `x` is the cycle
    `x, Q, h, P, x`. -/
theorem isChain_rotate {R : α → α → Prop} {h x : α} {P Q : List α}
    (hc : List.IsChain R (h :: P ++ x :: Q ++ [h])) : List.IsChain R (x :: Q ++ h :: P ++ [x]) := by
  have hc' : List.IsChain R ((h :: P ++ [x]) ++ (Q ++ [h])) := by simpa using hc
  have hpre := hc'.left_of_append
  have hsuf : List.IsChain R (x :: Q ++ [h]) := by
    have := hc.infix (show (x :: Q ++ [h]) <:+: _ from ⟨h :: P, [], by simp⟩)
    simpa using this
  have hjoin : List.IsChain R ((x :: Q ++ [h]) ++ (P ++ [x])) := by
    refine hsuf.append (hpre.tail) fun a ha b hb => ?_
    rw [Option.mem_def, List.getLast?_concat, Option.some.injEq] at ha
    subst ha
    have := List.isChain_cons.mp hpre
    exact this.1 b (by simpa using hb)
  simpa using hjoin

/-- **CYCLE**: a cycle through `h` read from any node `x` on it: the
    nodes after `x` and `x` itself are those of the cycle. -/
theorem exists_cycle {R : α → α → Prop} {h x : α} {P : List α} (hc : List.IsChain R (h :: P ++ [h]))
    (hx : x ∈ h :: P) : ∃ C, List.IsChain R (x :: C ++ [x]) ∧ (C ++ [x]).Perm (h :: P) := by
  rcases List.mem_cons.mp hx with rfl | hx
  · exact ⟨P, hc, List.perm_append_singleton _ _⟩
  · obtain ⟨P₁, Q, rfl⟩ := List.append_of_mem hx
    have hrot := isChain_rotate (P := P₁) (Q := Q) (by simpa using hc)
    refine ⟨Q ++ h :: P₁, by simpa using hrot, ?_⟩
    have := @List.perm_append_comm _ Q (h :: P₁ ++ [x])
    simpa using this

end Chain
