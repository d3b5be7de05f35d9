import BufferFusion.Proofs.Graph.Edits
import BufferFusion.Proofs.Graph.Order

/-!
# Topological orders

However a graph came about, no path of data edges leads back to where it began, and the order of
the graph has every node once and before its consumers. It is the order of a walk that pushes a
ready consumer once for each edge and skips the nodes it has visited: of several copies of a node
on the stack the topmost is the one that counts.
-/
namespace BufferFusion.Graph

open Relation

variable {g : Graph} {id a b : NodeId} {done ids stack stack' out : List NodeId}

/-! ### A walk that pushes once per edge -/

/-- Pushes the ready consumers of `id` one edge after the other, the newest first. -/
def pushEach (g : Graph) (done : List NodeId) (id : NodeId) (stack : List NodeId) : List NodeId :=
  (g.outgoing id).foldl (fun stack c => if g.isReady done c then c :: stack else stack) stack

/-- The walk from a stack, with the nodes visited so far, ends having visited `out`. What is visited
last stands first. -/
inductive Walks (g : Graph) : List NodeId → List NodeId → List NodeId → Prop
  | empty {done : List NodeId} : Walks g [] done done
  | skip {id : NodeId} {stack done out : List NodeId} : id ∈ done → Walks g stack done out →
      Walks g (id :: stack) done out
  | visit {id : NodeId} {stack done out : List NodeId} : id ∉ done →
      Walks g (g.pushEach (id :: done) id stack) (id :: done) out → Walks g (id :: stack) done out

theorem pushEach_eq : g.pushEach done id stack =
    (g.outgoing id).reverse.filter (g.isReady done) ++ stack := by
  rw [pushEach]
  induction g.outgoing id generalizing stack with
  | nil => rfl
  | cons c cs ih =>
    rw [List.foldl_cons, ih, List.reverse_cons, List.filter_append, List.append_assoc]
    cases h : g.isReady done c <;> simp [h]

theorem length_pushEach_le (hid : id ∉ done) :
    (g.pushEach (id :: done) id stack).length + g.edgesLeft (id :: done) ≤
      stack.length + g.edgesLeft done := by
  have hpush := List.length_filter_le (g.isReady (id :: done)) (g.outgoing id).reverse
  have hcount := edgesLeft_cons (g := g) hid
  rw [List.length_reverse, length_outgoing] at hpush
  rw [pushEach_eq, List.length_append]
  omega

/-- The second stack lacks nodes of the first that will have been visited when they come up. -/
inductive Thinned : List NodeId → List NodeId → List NodeId → Prop
  | nil {done : List NodeId} : Thinned done [] []
  | keep {id : NodeId} {done stack stack' : List NodeId} : Thinned (id :: done) stack stack' →
      Thinned done (id :: stack) (id :: stack')
  | drop {id : NodeId} {done stack stack' : List NodeId} : id ∈ done → Thinned done stack stack' →
      Thinned done (id :: stack) stack'

namespace Thinned

theorem refl (done stack : List NodeId) : Thinned done stack stack := by
  induction stack generalizing done with
  | nil => exact .nil
  | cons id stack ih => exact .keep (ih _)

theorem mono (h : Thinned done stack stack') {done' : List NodeId} (hsub : ∀ x ∈ done, x ∈ done') :
    Thinned done' stack stack' := by
  induction h generalizing done' with
  | nil => exact .nil
  | keep _ ih =>
    refine .keep (ih fun x hx => ?_)
    rcases List.mem_cons.1 hx with rfl | hx
    · exact List.mem_cons_self
    · exact List.mem_cons_of_mem _ (hsub x hx)
  | drop hid _ ih => exact .drop (hsub _ hid) (ih hsub)

/-- Of what is pushed on top, the nodes that are in `done` and further copies may be lacking. -/
theorem append {p q : NodeId → Bool} (h : Thinned done stack stack') (xs : List NodeId)
    (hq : ∀ x, q x = false → p x = true → x ∈ done) :
    Thinned done (xs.filter p ++ stack) ((xs.filter q).eraseDups.filter p ++ stack') := by
  induction xs generalizing done q with
  | nil => exact h
  | cons x xs ih =>
    cases hk : q x with
    | false =>
      rw [List.filter_cons_of_neg (p := q) (by simp [hk])]
      cases hp : p x with
      | false =>
        rw [List.filter_cons_of_neg (by simp [hp])]
        exact ih h hq
      | true =>
        rw [List.filter_cons_of_pos hp]
        exact .drop (hq x hk hp) (ih h hq)
    | true =>
      -- the copies of `x` below are dropped, for `x` is kept on top of them
      rw [List.filter_cons_of_pos (p := q) hk, List.eraseDups_cons, List.filter_filter]
      cases hp : p x with
      | false =>
        rw [List.filter_cons_of_neg (by simp [hp]), List.filter_cons_of_neg (by simp [hp])]
        refine ih h fun y hy hpy => ?_
        by_cases hyx : y = x
        · simp [hyx, hp] at hpy
        · exact hq y (by simpa [hyx] using hy) hpy
      | true =>
        rw [List.filter_cons_of_pos hp, List.filter_cons_of_pos hp]
        refine .keep (ih (h.mono fun y hy => List.mem_cons_of_mem _ hy) fun y hy hpy => ?_)
        by_cases hyx : y = x
        · exact hyx ▸ List.mem_cons_self
        · exact List.mem_cons_of_mem _ (hq y (by simpa [hyx] using hy) hpy)

theorem push (h : Thinned done stack stack') (g : Graph) (id : NodeId) :
    Thinned done (g.pushEach done id stack) (g.pushReady done id stack') := by
  have := h.append (p := g.isReady done) (q := fun _ => true) (g.outgoing id).reverse (by simp)
  rwa [List.filter_true, ← pushEach_eq, ← pushReady] at this

end Thinned

/-- On a thinned stack the same nodes are visited in the same order. -/
theorem walks_orderFrom {n fuel : Nat} (h : Thinned done stack stack')
    (hn : stack.length + g.edgesLeft done ≤ n) (hfuel : stack'.length + g.edgesLeft done ≤ fuel) :
    g.Walks stack done (g.orderFrom fuel stack' done) := by
  induction n generalizing stack stack' done fuel with
  | zero =>
    obtain rfl : stack = [] := List.eq_nil_of_length_eq_zero (by omega)
    cases h
    cases fuel <;> exact .empty
  | succ n ih =>
    cases h with
    | nil => cases fuel <;> exact .empty
    | drop hid h =>
      rw [List.length_cons] at hn
      exact .skip hid (ih h (by omega) hfuel)
    | @keep id _ stack stack' h =>
      rw [List.length_cons] at hn hfuel
      obtain ⟨fuel, rfl⟩ : ∃ k, fuel = k + 1 := Nat.exists_eq_add_one.2 (by omega)
      rw [orderFrom]
      split
      · next hid =>
        have hid : id ∈ done := by simpa using hid
        refine .skip hid (ih (h.mono fun x hx => ?_) (by omega) (by omega))
        rcases List.mem_cons.1 hx with rfl | hx
        · exact hid
        · exact hx
      · next hid =>
        have hid : id ∉ done := by simpa using hid
        have hleft : (g.pushEach (id :: done) id stack).length + g.edgesLeft (id :: done) ≤
            stack.length + g.edgesLeft done := length_pushEach_le hid
        have hleft' : (g.pushReady (id :: done) id stack').length + g.edgesLeft (id :: done) ≤
            stack'.length + g.edgesLeft done := length_pushReady_le hid
        exact .visit hid (ih (h.push g id) (by omega) (by omega))

/-- The walk from the nodes without inputs, the last of them on top, ends with the order. -/
theorem walks_order (g : Graph) : g.Walks g.roots.reverse [] g.order.reverse := by
  rw [order, List.reverse_reverse]
  refine walks_orderFrom (.refl _ _) (Nat.le_refl _) ?_
  have hroots := length_roots_le g
  rw [List.length_reverse, edgesLeft_nil]
  omega

/-- A walk has one outcome. -/
theorem Walks.unique {out' : List NodeId} (h : g.Walks stack done out)
    (h' : g.Walks stack done out') : out = out' := by
  induction h with
  | empty =>
    cases h'
    rfl
  | skip hid _ ih =>
    cases h' with
    | skip _ h' => exact ih h'
    | visit hid' _ => exact absurd hid hid'
  | visit hid _ ih =>
    cases h' with
    | skip hid' _ => exact absurd hid' hid
    | visit _ h' => exact ih h'

/-! ### Orders without cycles -/

/-- Producers stand before their consumers. -/
theorem Ordered.idxOf_lt (h : g.Ordered done ids) (hf : g.Feeds a b) (hb : b ∈ ids)
    (ha : a ∉ done) : ids.idxOf a < ids.idxOf b := by
  induction ids generalizing done with
  | nil => cases hb
  | cons x ids ih =>
    obtain ⟨-, -, hready, hrest⟩ := h
    by_cases hbx : b = x
    · exact absurd (hready a (hbx ▸ hf)) ha
    have hxb : (x == b) = false := beq_eq_false_iff_ne.2 (Ne.symm hbx)
    rw [List.idxOf_cons, List.idxOf_cons, hxb, cond_false]
    cases hxa : x == a with
    | true => exact Nat.succ_pos _
    | false =>
      rw [cond_false]
      refine Nat.succ_lt_succ (ih hrest ((List.mem_cons.1 hb).resolve_left hbx) ?_)
      rw [List.mem_cons, not_or]
      exact ⟨Ne.symm (beq_eq_false_iff_ne.1 hxa), ha⟩

theorem Sound.acyclic_feeds (h : g.Sound) : ¬ TransGen g.Feeds a a := by
  obtain ⟨rank, hr⟩ := h.ranked
  have hlt : ∀ {b}, TransGen g.Feeds a b → rank a < rank b := fun hp => by
    induction hp with
    | single hf => exact hr hf
    | tail _ hf ih => exact Nat.lt_trans ih (hr hf)
  exact fun hp => Nat.lt_irrefl _ (hlt hp)

/-- Whatever calls were made, successful or not: no node reaches itself along data edges, and the
order, which is where the walk ends, lists every node once and no other, each before its consumers. -/
theorem topological_edited (edits : List Edit) : (∀ a, ¬ TransGen (edited edits).Feeds a a) ∧
    (edited edits).Walks (edited edits).roots.reverse [] (edited edits).order.reverse ∧
    (∀ a, (edited edits).order.count a = if (edited edits).contains a then 1 else 0) ∧
    ∀ a b, (edited edits).Feeds a b →
      (edited edits).order.idxOf a < (edited edits).order.idxOf b := by
  have hs := sound_edited edits
  refine ⟨fun a => hs.acyclic_feeds, walks_order _, fun a => ?_, fun a b hf => ?_⟩
  · by_cases ha : (edited edits).contains a = true
    · rw [if_pos ha]
      exact List.count_eq_one_of_mem hs.order_nodup (hs.mem_order.2 ha)
    · rw [if_neg ha]
      exact List.count_eq_zero.2 fun hmem => ha (hs.mem_order.1 hmem)
  · exact hs.ordered.idxOf_lt hf (hs.mem_order.2 hf.contains_right) List.not_mem_nil

-- one producer in both slots of its consumer; the id of the reorder that is replaced goes to a node
-- that comes after greater ids
example : (edited [.add "x" (.input (.plain (.ofSizes [2]) .f32)) [],
    .add "r" (.reorder .bfyx .f32) [0], .add "c" (.concatenation 0) [1, 1], .replace 1 0 true,
    .add "y" (.permute [0]) [2]]).order = [0, 2, 1] := by decide

end BufferFusion.Graph
