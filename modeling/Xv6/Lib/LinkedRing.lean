import Mathlib

/-! # Circular doubly linked lists with a sentinel

    The links of such a list are two functions, `next` and `prev`, over its
    nodes.  The list through sentinel `h` holds `l` when following `next`
    from `h` meets the nodes of `l` in order and comes back to `h`, and
    every `next` hop is undone by `prev`: `h :: l ++ [h]` is a chain of
    links (`Links.Ring`).

    The two pointer rewrites of C list code are here as the statements
    are written: `unlink` (`b->next->prev = b->prev; b->prev->next =
    b->next`) and `pushFront` (insert `b` right after the sentinel).

    * `Ring.unlink`, `Ring.pushFront`, `Ring.pushFront_foldl`: the rewrites
      take out a node and put one first;
    * `Ring.next_prev`, `Ring.prev_next`: in a ring every node's `next` has
      it as `prev`, and the other way;
    * `Ring.scan_next`, `Ring.scan_prev`: a scan from the sentinel along
      `next` (`prev`) finds the first (last) node of `l` with a property. -/

namespace LinkedRing

variable {α : Type}

/-- The `next` and `prev` pointers of every node. -/
structure Links (α : Type) where
  next : α → α
  prev : α → α

theorem getLast_not_mem_dropLast {l : List α} (hl : l ≠ []) (hn : l.Nodup) :
    l.getLast hl ∉ l.dropLast := by
  rw [← List.dropLast_concat_getLast hl] at hn
  exact fun hm => (List.nodup_append.mp hn).2.2 _ hm _ (List.mem_singleton_self _) rfl

theorem head_not_mem_tail {l : List α} (hl : l ≠ []) (hn : l.Nodup) : l.head hl ∉ l.tail := by
  obtain ⟨a, t, rfl⟩ := List.exists_cons_of_ne_nil hl
  exact (List.nodup_cons.mp hn).1

/-- The first element of `t ++ [h]` is `t.headD h`. -/
theorem headD_of_append_eq {t rest : List α} {h y : α} (e : t ++ [h] = y :: rest) : y = t.headD h := by
  cases t with
  | nil => exact (List.cons.inj e).1.symm
  | cons b t => exact (List.cons.inj e).1.symm

namespace Links

/-- `x->next == y` and `y->prev == x`. -/
def Link (L : Links α) (x y : α) : Prop := L.next x = y ∧ L.prev y = x

/-- The list through sentinel `h` holds `l`, in order. -/
def Ring (L : Links α) (h : α) (l : List α) : Prop := List.IsChain L.Link (h :: l ++ [h])

/-- The empty list: the sentinel points at itself. -/
theorem ring_nil {L : Links α} {h : α} (hn : L.next h = h) (hp : L.prev h = h) : L.Ring h [] :=
  List.IsChain.cons_cons ⟨hn, hp⟩ (List.isChain_singleton h)

/-- **FRAME**: a chain survives a change of pointers it does not read: the
    `next` of the node it ends at and the `prev` of the node it starts at. -/
theorem chain_frame {L L' : Links α} :
    ∀ {xs : List α}, List.IsChain L.Link xs →
      (∀ x ∈ xs.dropLast, L'.next x = L.next x) → (∀ y ∈ xs.tail, L'.prev y = L.prev y) →
      List.IsChain L'.Link xs
  | [], _, _, _ => List.IsChain.nil
  | [x], _, _, _ => List.isChain_singleton x
  | x :: y :: xs, h, hn, hp => by
      rw [List.isChain_cons_cons] at h ⊢
      obtain ⟨⟨hxy, hyx⟩, hrest⟩ := h
      refine ⟨⟨?_, ?_⟩, chain_frame hrest ?_ ?_⟩
      · rw [hn x (by simp)]
        exact hxy
      · rw [hp y (by simp)]
        exact hyx
      · intro z hz
        exact hn z (by rw [List.dropLast_cons_cons]; exact List.mem_cons_of_mem _ hz)
      · intro z hz
        exact hp z (List.mem_cons_of_mem _ hz)

/-- The two links around a node of a chain `P ++ b :: Q`. -/
theorem chain_around {L : Links α} {P Q : List α} {b : α} (hP : P ≠ []) (hQ : Q ≠ [])
    (h : List.IsChain L.Link (P ++ b :: Q)) :
    List.IsChain L.Link P ∧ List.IsChain L.Link Q ∧
      L.Link (P.getLast hP) b ∧ L.Link b (Q.head hQ) := by
  rw [List.isChain_append] at h
  obtain ⟨hPc, hbQ, hjoin⟩ := h
  obtain ⟨q, Q', rfl⟩ := List.exists_cons_of_ne_nil hQ
  rw [List.isChain_cons_cons] at hbQ
  exact ⟨hPc, hbQ.2, hjoin _ (List.getLast?_eq_some_getLast hP ▸ rfl) b rfl, hbQ.1⟩

/-- Two chains joined by a link. -/
theorem chain_join {L : Links α} {P Q : List α} (hP : P ≠ []) (hQ : Q ≠ [])
    (hPc : List.IsChain L.Link P) (hQc : List.IsChain L.Link Q)
    (hj : L.Link (P.getLast hP) (Q.head hQ)) : List.IsChain L.Link (P ++ Q) := by
  rw [List.isChain_append]
  refine ⟨hPc, hQc, fun x hx y hy => ?_⟩
  rw [List.getLast?_eq_some_getLast hP, Option.mem_def, Option.some.injEq] at hx
  rw [List.head?_eq_some_head hQ, Option.mem_def, Option.some.injEq] at hy
  rw [← hx, ← hy]
  exact hj

section Walk

variable {L : Links α} {h : α} {l : List α}

/-- The ring read backwards, through `prev`. -/
theorem Ring.reverse (hr : L.Ring h l) : List.IsChain (fun a b => L.prev a = b) (h :: l.reverse ++ [h]) := by
  have hrev : h :: l.reverse ++ [h] = (h :: l ++ [h]).reverse := by simp
  rw [hrev, List.isChain_reverse]
  exact hr.imp fun _ _ hab => hab.2

/-- **NEXT THEN PREV**: in a ring, `x->next->prev == x`. -/
theorem Ring.prev_next (hr : L.Ring h l) {x : α} (hx : x ∈ h :: l) : L.prev (L.next x) = x := by
  obtain ⟨A, B, hAB⟩ := List.append_of_mem hx
  have hc : List.IsChain L.Link (A ++ x :: (B ++ [h])) := by
    have : h :: l ++ [h] = A ++ x :: (B ++ [h]) := by rw [hAB]; simp
    rw [Ring, this] at hr
    exact hr
  obtain ⟨y, rest, hyr⟩ := List.exists_cons_of_ne_nil (show B ++ [h] ≠ [] by simp)
  rw [hyr, List.isChain_append, List.isChain_cons_cons] at hc
  rw [hc.2.1.1.1, hc.2.1.1.2]

/-- **PREV THEN NEXT**: in a ring, `x->prev->next == x`. -/
theorem Ring.next_prev (hr : L.Ring h l) {x : α} (hx : x ∈ h :: l) : L.next (L.prev x) = x := by
  obtain ⟨A, B, hAB⟩ := List.append_of_mem hx
  rcases A.eq_nil_or_concat with rfl | ⟨A', w, rfl⟩
  · -- `x` is the sentinel: its `prev` is the last node of the ring
    have hxh : x = h := (List.cons.inj hAB).1.symm
    obtain ⟨l', z, hz⟩ := (List.eq_nil_or_concat (h :: l)).resolve_left (List.cons_ne_nil h l)
    have hc : List.IsChain L.Link (l' ++ z :: [h]) := by
      have : h :: l ++ [h] = l' ++ z :: [h] := by rw [hz]; simp
      rw [Ring, this] at hr
      exact hr
    rw [List.isChain_append, List.isChain_cons_cons] at hc
    rw [hxh, hc.2.1.1.2, hc.2.1.1.1]
  · -- otherwise the node before `x` links to it
    have hc : List.IsChain L.Link (A' ++ w :: x :: (B ++ [h])) := by
      have : h :: l ++ [h] = A' ++ w :: x :: (B ++ [h]) := by rw [hAB]; simp
      rw [Ring, this] at hr
      exact hr
    rw [List.isChain_append, List.isChain_cons_cons] at hc
    rw [hc.2.1.1.2, hc.2.1.1.1]

end Walk

/-- The scan `for (x = start; x != h; x = f(x)) if (p(x)) ...` for at most
    `n` nodes: the first node it meets with `p`. -/
def findFrom [DecidableEq α] (f : α → α) (h : α) (p : α → Bool) : Nat → α → Option α
  | 0, _ => none
  | n + 1, x => if x = h then none else if p x then some x else findFrom f h p n (f x)

/-- **SCAN**: a scan along a chain of `f` ending at the sentinel finds the
    first node of the chain with `p`. -/
theorem findFrom_chain [DecidableEq α] (f : α → α) (h : α) (p : α → Bool) :
    ∀ {l : List α} {n : Nat}, h ∉ l → l.length < n →
      List.IsChain (fun a b => f a = b) (l ++ [h]) → findFrom f h p n (l.headD h) = l.find? p
  | [], n + 1, _, _, _ => by simp [findFrom]
  | a :: t, n + 1, hh, hn, hc => by
      have hah : a ≠ h := fun e => hh (e ▸ List.mem_cons_self ..)
      show findFrom f h p (n + 1) a = _
      rw [findFrom, if_neg hah]
      by_cases hp : p a
      · simp [hp]
      · obtain ⟨y, rest, hyr⟩ := List.exists_cons_of_ne_nil (show t ++ [h] ≠ [] by simp)
        have hc' := hc
        rw [List.cons_append, hyr, List.isChain_cons_cons] at hc'
        have hfa : f a = t.headD h := hc'.1.trans (headD_of_append_eq hyr)
        rw [if_neg hp, hfa, List.find?_cons_of_neg (by simpa using hp)]
        exact findFrom_chain f h p (fun ht => hh (List.mem_cons_of_mem _ ht))
          (by simp at hn; omega) (hyr ▸ hc'.2)

section Scan

variable [DecidableEq α] {L : Links α} {h : α} {l : List α}

/-- A scan along `next` from the sentinel's `next` meets `l` in order. -/
theorem Ring.scan_next (hr : L.Ring h l) (hh : h ∉ l) {n : Nat} (hn : l.length < n) (p : α → Bool) :
    findFrom L.next h p n (L.next h) = l.find? p := by
  have hc : List.IsChain L.Link (h :: (l ++ [h])) := by simpa [Ring] using hr
  obtain ⟨y, rest, hyr⟩ := List.exists_cons_of_ne_nil (show l ++ [h] ≠ [] by simp)
  have hc' := hc
  rw [hyr, List.isChain_cons_cons] at hc'
  have hstart : L.next h = l.headD h := hc'.1.1.trans (headD_of_append_eq hyr)
  rw [hstart]
  exact findFrom_chain L.next h p hh hn ((List.isChain_cons.mp hc).2.imp fun _ _ hab => hab.1)

/-- A scan along `prev` from the sentinel's `prev` meets `l` backwards. -/
theorem Ring.scan_prev (hr : L.Ring h l) (hh : h ∉ l) {n : Nat} (hn : l.length < n) (p : α → Bool) :
    findFrom L.prev h p n (L.prev h) = l.reverse.find? p := by
  have hc := hr.reverse
  obtain ⟨y, rest, hyr⟩ := List.exists_cons_of_ne_nil (show l.reverse ++ [h] ≠ [] by simp)
  have hc' := hc
  rw [List.cons_append, hyr, List.isChain_cons_cons] at hc'
  have hstart : L.prev h = l.reverse.headD h := hc'.1.trans (headD_of_append_eq hyr)
  rw [hstart]
  exact findFrom_chain L.prev h p (by simpa using hh) (by simpa using hn)
    (List.isChain_cons.mp (List.cons_append .. ▸ hc)).2

end Scan

variable [DecidableEq α]

/-- `x->next = v`. -/
def setNext (L : Links α) (x v : α) : Links α := ⟨Function.update L.next x v, L.prev⟩

/-- `x->prev = v`. -/
def setPrev (L : Links α) (x v : α) : Links α := ⟨L.next, Function.update L.prev x v⟩

@[simp] theorem setNext_next (L : Links α) (x v : α) :
    (L.setNext x v).next = Function.update L.next x v := rfl

@[simp] theorem setNext_prev (L : Links α) (x v : α) : (L.setNext x v).prev = L.prev := rfl

@[simp] theorem setPrev_next (L : Links α) (x v : α) : (L.setPrev x v).next = L.next := rfl

@[simp] theorem setPrev_prev (L : Links α) (x v : α) :
    (L.setPrev x v).prev = Function.update L.prev x v := rfl

/-- `b->next->prev = b->prev; b->prev->next = b->next;` -/
def unlink (L : Links α) (b : α) : Links α :=
  let L₁ := L.setPrev (L.next b) (L.prev b)
  L₁.setNext (L₁.prev b) (L₁.next b)

/-- `b->next = h->next; b->prev = h; h->next->prev = b; h->next = b;` -/
def pushFront (L : Links α) (h b : α) : Links α :=
  let L₁ := L.setNext b (L.next h)
  let L₂ := L₁.setPrev b h
  let L₃ := L₂.setPrev (L₂.next h) b
  L₃.setNext h b

section Rewrites

variable {L : Links α} {h b : α}

/-- **UNLINK**: taking a node out of a ring leaves the ring of the other
    nodes. -/
theorem Ring.unlink {A B : List α} (hr : L.Ring h (A ++ b :: B))
    (hnd : (h :: (A ++ b :: B)).Nodup) : (L.unlink b).Ring h (A ++ B) := by
  -- the ring is `P ++ b :: Q`, with `p` the last of `P` and `q` the head of `Q`
  have hP : h :: A ≠ [] := List.cons_ne_nil h A
  have hQ : B ++ [h] ≠ [] := by simp
  have hr' : List.IsChain L.Link ((h :: A) ++ b :: (B ++ [h])) := by
    simpa [Ring] using hr
  obtain ⟨hPc, hQc, ⟨-, hpp⟩, ⟨hbn, -⟩⟩ := chain_around hP hQ hr'
  set p := (h :: A).getLast hP
  set q := (B ++ [h]).head hQ
  simp only [List.nodup_cons, List.nodup_append, List.mem_append, List.mem_cons, not_or] at hnd
  obtain ⟨⟨hhA, hhb, hhB⟩, hA, ⟨hbB, hB⟩, hAB⟩ := hnd
  have hpm : p ∈ h :: A := List.getLast_mem hP
  have hqm : q ∈ B ++ [h] := List.head_mem hQ
  have hqb : q ≠ b := by
    intro hqb
    rcases List.mem_append.mp hqm with hq | hq
    · exact hbB (hqb ▸ hq)
    · exact hhb ((List.mem_singleton.mp hq).symm.trans hqb)
  -- no node of `A` is `q`, and no node of `B` is `p`
  have hAq : ∀ x ∈ A, x ≠ q := by
    intro x hx hxq
    rcases List.mem_append.mp (hxq ▸ hqm) with hq | hq
    · exact hAB x hx x (Or.inr hq) rfl
    · exact hhA (List.mem_singleton.mp hq ▸ hx)
  have hBp : ∀ x ∈ B, x ≠ p := by
    intro x hx hxp
    rcases List.mem_cons.mp (hxp ▸ hpm) with hp | hp
    · exact hhB (hp ▸ hx)
    · exact hAB x hp x (Or.inr hx) rfl
  have hunlink : L.unlink b = (L.setPrev q p).setNext p q := by
    simp only [Links.unlink, setPrev_prev, setPrev_next, hbn, hpp, Function.update_of_ne hqb.symm]
  have hring : h :: (A ++ B) ++ [h] = (h :: A) ++ (B ++ [h]) := by simp
  rw [Ring, hunlink, hring]
  refine chain_join hP hQ (chain_frame hPc ?_ ?_) (chain_frame hQc ?_ ?_) ⟨?_, ?_⟩
  · intro x hx
    exact Function.update_of_ne (fun hxp : x = p => getLast_not_mem_dropLast hP
      (List.nodup_cons.mpr ⟨hhA, hA⟩) (by have hm := hxp ▸ hx; exact hm)) _ _
  · intro y hy
    exact Function.update_of_ne (hAq y hy) _ _
  · intro x hx
    rw [List.dropLast_concat] at hx
    exact Function.update_of_ne (hBp x hx) _ _
  · intro y hy
    have hnd : (B ++ [h]).Nodup := by
      simp only [List.nodup_append, hB, List.nodup_cons, List.not_mem_nil, not_false_eq_true,
        List.nodup_nil, and_self, List.mem_singleton, true_and]
      intro x hx y hy hxy
      exact hhB (hy ▸ hxy ▸ hx)
    exact Function.update_of_ne (fun hyq : y = q => head_not_mem_tail hQ hnd
      (by have hm := hyq ▸ hy; exact hm)) _ _
  · exact Function.update_self _ _ _
  · exact Function.update_self _ _ _

/-- **PUSH FRONT**: a node that is not in the ring, put right after the
    sentinel, becomes the first node. -/
theorem Ring.pushFront {l : List α} (hr : L.Ring h l) (hnd : (h :: l).Nodup) (hb : b ∉ h :: l) :
    (L.pushFront h b).Ring h (b :: l) := by
  -- `f`, the node after the sentinel, is the first of `l ++ [h]`
  obtain ⟨f, rest, hfr⟩ := List.exists_cons_of_ne_nil (show l ++ [h] ≠ [] by simp)
  have hr' : List.IsChain L.Link (h :: f :: rest) := by
    rw [← hfr]
    simpa [Ring] using hr
  rw [List.isChain_cons_cons] at hr'
  obtain ⟨hhf, hc⟩ := hr'
  have hQnd : (f :: rest).Nodup := hfr ▸ (List.perm_append_singleton h l).nodup_iff.mpr hnd
  have hbQ : b ∉ f :: rest := by
    rw [← hfr]
    simpa [or_comm] using hb
  have hbh : b ≠ h := fun e => hb (e ▸ List.mem_cons_self ..)
  have hbf : b ≠ f := fun e => hbQ (e ▸ List.mem_cons_self ..)
  have hpush : L.pushFront h b = (((L.setNext b f).setPrev b h).setPrev f b).setNext h b := by
    simp only [Links.pushFront, setPrev_next, setNext_next, Function.update_of_ne hbh.symm, hhf.1]
  have hring : h :: (b :: l) ++ [h] = h :: b :: f :: rest := by
    rw [List.cons_append, List.cons_append, hfr]
  rw [Ring, hpush, hring]
  refine List.IsChain.cons_cons ⟨Function.update_self _ _ _, ?_⟩
    (List.IsChain.cons_cons ⟨?_, ?_⟩ (chain_frame hc ?_ ?_))
  · show Function.update (Function.update L.prev b h) f b b = h
    rw [Function.update_of_ne hbf, Function.update_self]
  · show Function.update (Function.update L.next b f) h b b = f
    rw [Function.update_of_ne hbh, Function.update_self]
  · exact Function.update_self _ _ _
  · -- the rest of the ring reads no pointer that changed
    intro x hx
    rw [← hfr, List.dropLast_concat] at hx
    have hxh : x ≠ h := fun e => (List.nodup_cons.mp hnd).1 (e ▸ hx)
    have hxb : x ≠ b := fun e => hb (List.mem_cons_of_mem _ (e ▸ hx))
    simp only [setNext_next, setPrev_next, Function.update_of_ne hxh, Function.update_of_ne hxb]
  · intro y hy
    have hyf : y ≠ f := fun e => (List.nodup_cons.mp hQnd).1 (e ▸ hy)
    have hyb : y ≠ b := fun e => hbQ (List.mem_cons_of_mem _ (e ▸ hy))
    simp only [setNext_prev, setPrev_prev, Function.update_of_ne hyf, Function.update_of_ne hyb]

/-- **MOVE TO FRONT**: a node of the ring taken out and put right after the
    sentinel, as an LRU list marks a node most recently used. -/
theorem Ring.moveFront {A B : List α} (hr : L.Ring h (A ++ b :: B))
    (hnd : (h :: (A ++ b :: B)).Nodup) : ((L.unlink b).pushFront h b).Ring h (b :: (A ++ B)) := by
  have hnd' : (h :: b :: (A ++ B)).Nodup := (List.perm_middle.cons h).nodup_iff.mp hnd
  have hrest : (h :: (A ++ B)).Nodup :=
    hnd'.sublist (List.Sublist.cons_cons h (List.sublist_cons_self b _))
  have hb : b ∉ h :: (A ++ B) := by
    simp only [List.nodup_cons, List.mem_cons, not_or] at hnd'
    simp only [List.mem_cons, not_or]
    exact ⟨fun e => hnd'.1.1 e.symm, hnd'.2.1⟩
  exact (hr.unlink hnd).pushFront hrest hb

/-- **PUSH FRONT, REPEATED**: nodes put first one after the other stand
    in the ring in the reverse order. -/
theorem Ring.pushFront_foldl : ∀ {bs l : List α} {L : Links α}, L.Ring h l → (h :: (bs ++ l)).Nodup →
    (bs.foldl (fun L b => L.pushFront h b) L).Ring h (bs.reverse ++ l)
  | [], _, _, hr, _ => by simpa using hr
  | b :: bs, l, L, hr, hnd => by
      have hl : (h :: l).Nodup := hnd.sublist (List.Sublist.cons_cons h (List.sublist_append_right _ _))
      have hb : b ∉ h :: l := by
        simp only [List.cons_append, List.nodup_cons, List.mem_cons, List.mem_append, not_or] at hnd
        simp only [List.mem_cons, not_or]
        exact ⟨fun e => hnd.1.1 e.symm, hnd.2.1.2⟩
      have hnd' : (h :: (bs ++ b :: l)).Nodup := (List.perm_middle.cons h).nodup_iff.mpr hnd
      simpa using Ring.pushFront_foldl (hr.pushFront hl hb) hnd'

end Rewrites

end Links

end LinkedRing
