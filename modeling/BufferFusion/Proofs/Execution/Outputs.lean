import Mathlib.Data.List.Perm.Basic
import BufferFusion.Network
import BufferFusion.Proofs.Execution.Running

/-!
# Outputs of an execution

What an execution shows is what its outputs are read as. The list of outputs is ordered by name, so
it does not depend on the order in which they are found.
-/
namespace BufferFusion

open Graph

variable {g : Graph} {b : Bindings} {values : InputValues} {v : NodeId → List Float}
  {x : NodeId} {n : Node} {l : Layout} {e e' : Execution}

/-- What a node shows is what is read from its memory. -/
theorem Ready.read_of_shows (k : Ready g values) (hv : g.Evaluated values v x) (hroom : l.HasRoom)
    (hl : g.layout x = .ok l) (h : g.Shows b x (v x)) :
    ∃ m, b.memory? x = some m ∧ m.read l = .ok (v x) := by
  obtain ⟨m, l', hm, hl', hholds⟩ := h
  obtain rfl := Except.ok.inj (hl.symm.trans hl')
  obtain ⟨a, size, ha, hf, hsize⟩ := hroom
  obtain ⟨_, l', sizes, -, hl', hs, hcount, -⟩ := hv
  obtain rfl := Except.ok.inj (hl.symm.trans hl')
  refine ⟨m, hm, Memory.read_of_holds (k.valid hl) hf ha hs hcount (Size.reserve_eq_ok.2 ?_) hholds⟩
  rw [← Size.prod_of_product hcount]
  exact (Layout.prod_le_footprint (k.valid hl) hf hs).trans hsize

namespace Output

variable {o o' p : Output} {os os' : List Output}

/-- Two outputs of one name that have the same shape and the same lanes. -/
structure Agrees (o o' : Output) : Prop where
  name : o'.name = o.name
  shape : o'.layout.shape = o.layout.shape
  lanes : ∃ lanes, o.lanes = .ok lanes ∧ o'.lanes = .ok lanes

theorem insert_comm_of_lt (h : o.name < p.name) (os : List Output) :
    insert o (insert p os) = insert p (insert o os) := by
  have hnot : ¬ p.name < o.name := String.lt_asymm h
  induction os with
  | nil => simp only [insert, if_pos h, if_neg hnot]
  | cons q os ih =>
    by_cases hp : p.name < q.name
    · have ho : o.name < q.name := String.lt_trans h hp
      simp only [insert, if_pos hp, if_pos ho, if_pos h, if_neg hnot]
    · by_cases ho : o.name < q.name
      · simp only [insert, if_neg hp, if_pos ho, if_neg hnot]
      · simp only [insert, if_neg hp, if_neg ho, ih]

theorem insert_comm (h : o.name ≠ p.name) (os : List Output) :
    insert o (insert p os) = insert p (insert o os) := by
  by_cases hlt : o.name < p.name
  · exact insert_comm_of_lt hlt os
  · exact (insert_comm_of_lt (Std.lt_of_le_of_ne (Std.not_lt.1 hlt) h.symm) os).symm

theorem agrees_insert (h : Agrees o o') (hos : List.Forall₂ Agrees os os') :
    List.Forall₂ Agrees (insert o os) (insert o' os') := by
  induction hos with
  | nil => exact .cons h .nil
  | @cons p p' os os' hp hos ih =>
    rw [insert, insert, h.name, hp.name]
    split
    · exact .cons h (.cons hp hos)
    · exact .cons hp ih

theorem agrees_foldr (hos : List.Forall₂ Agrees os os') :
    List.Forall₂ Agrees (os.foldr insert []) (os'.foldr insert []) := by
  induction hos with
  | nil => exact .nil
  | cons ho _ ih => exact agrees_insert ho ih

/-- The order in which outputs are put into a list does not matter. -/
theorem foldr_insert_perm (h : os.Perm os')
    (hname : ∀ o ∈ os, ∀ p ∈ os, o.name = p.name → o = p) :
    os.foldr insert [] = os'.foldr insert [] := by
  refine h.foldr_eq' (fun o ho p hp rest => ?_) []
  by_cases he : p.name = o.name
  · rw [hname p hp o ho he]
  · exact insert_comm he rest

end Output

/-! ### The outputs of two executions -/

namespace Execution

theorem output_eq_ok {m : Memory} (hn : e.graph.node? x = some n)
    (hm : e.bindings.memory? x = some m) (hl : e.graph.layout x = .ok l) :
    e.output x = .ok ⟨n.name, m, l⟩ := by
  rw [output, get_eq_ok.2 hn]
  simp only [bind, Except.bind, hm, hl]
  rfl

theorem outputs_eq_ok {os : List Output} : e.outputs = .ok os ↔
    ∃ found, List.Forall₂ (fun x o => e.output x = .ok o) e.graph.outputs found ∧
      found.foldr Output.insert [] = os := by
  rw [outputs, Result.bind_eq_ok]
  simp only [Result.mapM_eq_ok, pure, Except.pure, Except.ok.injEq]

/-- Outputs of one name are one output. -/
theorem output_unique {o p : Output} {y : NodeId} (hs : e.graph.Sound) (hx : e.output x = .ok o)
    (hy : e.output y = .ok p) (h : o.name = p.name) : o = p := by
  have hnamed : ∀ {z q}, e.output z = .ok q → ∃ n, e.graph.node? z = some n ∧ n.name = q.name := by
    intro z q hq
    obtain ⟨n, hn, hq⟩ := Result.bind_eq_ok.1 hq
    split at hq
    · cases hq
    · obtain ⟨l, -, hq⟩ := Result.bind_eq_ok.1 hq
      obtain rfl := Except.ok.inj hq
      exact ⟨n, get_eq_ok.1 hn, rfl⟩
  obtain ⟨n, hn, hno⟩ := hnamed hx
  obtain ⟨m, hm, hmp⟩ := hnamed hy
  obtain rfl := hs.name_injective hn hm (hno.trans (h.trans hmp.symm))
  exact Except.ok.inj (hx.symm.trans hy)

/-- Executions with the same outputs, up to their order, whose outputs agree one by one, answer
lists that agree. -/
theorem outputs_agree {os : List Output} (hs : e'.graph.Sound) (h : e.outputs = .ok os)
    (hperm : e'.graph.outputs.Perm e.graph.outputs)
    (hagree : ∀ x ∈ e.graph.outputs, ∀ o, e.output x = .ok o →
      ∃ o', e'.output x = .ok o' ∧ o.Agrees o') :
    ∃ os', e'.outputs = .ok os' ∧ List.Forall₂ Output.Agrees os os' := by
  obtain ⟨found, hfound, rfl⟩ := outputs_eq_ok.1 h
  obtain ⟨found', hfound', hall⟩ : ∃ found', List.Forall₂ (fun x o => e'.output x = .ok o)
      e.graph.outputs found' ∧ List.Forall₂ Output.Agrees found found' := by
    generalize e.graph.outputs = ids at hfound hagree
    clear h hperm
    induction hfound with
    | nil => exact ⟨[], .nil, .nil⟩
    | @cons x o ids found ho _ ih =>
      rw [List.forall_mem_cons] at hagree
      obtain ⟨o', ho', ha⟩ := hagree.1 o ho
      obtain ⟨found', hfound', hall⟩ := ih hagree.2
      exact ⟨o' :: found', .cons ho' hfound', .cons ha hall⟩
  obtain ⟨found'', hfound'', hsame⟩ := List.perm_comp_forall₂ hperm hfound'
  refine ⟨_, outputs_eq_ok.2 ⟨found'', hfound'', rfl⟩, ?_⟩
  rw [Output.foldr_insert_perm hsame fun o ho p hp hname => ?_]
  · exact Output.agrees_foldr hall
  · obtain ⟨i, hi, rfl⟩ := List.mem_iff_getElem.1 ho
    obtain ⟨j, hj, rfl⟩ := List.mem_iff_getElem.1 hp
    exact output_unique hs (hfound''.get (hfound''.length_eq ▸ hi) hi)
      (hfound''.get (hfound''.length_eq ▸ hj) hj) hname

end Execution

end BufferFusion
