import BufferFusion.Pass.Identity
import BufferFusion.Proofs.Graph.Built
import BufferFusion.Proofs.Inference.Resolve

/-!
# Removing identities

A removed identity has the layout of the producer that takes its place, so the layouts that are
left are still those that the operations yield.
-/
namespace BufferFusion

theorem Infer.Yields.unpadded {p : Option (List Float)} {op : Operation} {ins : List Layout}
    {l : Layout} (h : Yields p op ins l) : l.padding = .zero l.rank := by
  cases h <;> rfl

namespace Graph

variable {g g' : Graph} {old new id : NodeId} {ids : List NodeId} {n : Node}

theorem Yielded.layout (k : g.Yielded) {l : Layout} (hl : g.layout id = .ok l) :
    l.padding = .zero l.rank ∧ l.isValid = true := by
  obtain ⟨n, hn, -⟩ := layout_eq_ok.1 hl
  obtain ⟨_, _, l', _, _, _, hl', hy, hv⟩ := k id (contains_iff.2 ⟨n, hn⟩)
  obtain rfl := Except.ok.inj (hl.symm.trans hl')
  exact ⟨hy.unpadded, hv⟩

theorem Laid.layout (k : g.Laid) {l : Layout} (hl : g.layout id = .ok l) :
    l.padding = .zero l.rank ∧ l.isValid = true := k.yielded.layout hl

theorem Inferred.layout {values : InputValues} (k : g.Inferred values) {l : Layout}
    (hl : g.layout id = .ok l) : l.padding = .zero l.rank ∧ l.isValid = true := k.yielded.layout hl

namespace Replaced

theorem layout_eq (k : g.Replaced old new g') {x : NodeId} (hx : x ≠ old) :
    g'.layout x = g.layout x := by
  simp only [Graph.layout, get, k.node?, if_neg hx]
  cases g.node? x <;> rfl

/-- Whoever read the old node reads the same layout from the new one. -/
theorem layout_substitute (k : g.Replaced old new g') (hsame : g.layout new = g.layout old)
    (x : NodeId) : g'.layout (substitute old new x) = g.layout x := by
  by_cases hx : x = old
  · subst hx
    rw [substitute_self, k.layout_eq k.ne.symm, hsame]
  · rw [substitute_of_ne hx, k.layout_eq hx]

theorem lays (k : g.Replaced old new g') (hsame : g.layout new = g.layout old) {ls : List Layout}
    (h : g.Lays ids ls) : g'.Lays (ids.map (substitute old new)) ls := by
  rw [Lays, List.forall₂_map_left_iff]
  exact h.imp fun x _ hx => (k.layout_substitute hsame x).trans hx

/-- A pattern that came through the old node may be readable now, any other is what it was. -/
theorem pattern?_cases (k : g.Replaced old new g') (values : InputValues)
    (hgiven : g.given? values old = none) (n : Node) :
    g.pattern? values n = none ∨
      g'.pattern? values (n.redirect old new) = g.pattern? values n := by
  simp only [pattern?, Node.redirect, List.getElem?_map]
  cases n.inputs[1]? with
  | none => exact .inl rfl
  | some a =>
    simp only [Option.map_some, Option.bind_some]
    by_cases ha : a = old
    · subst ha
      exact .inl hgiven
    · refine .inr ?_
      rw [substitute_of_ne ha, given?, given?, k.node?, if_neg ha]
      cases g.node? a <;> rfl

theorem laid (k : g.Replaced old new g') (hl : g.Laid) (hsame : g.layout new = g.layout old)
    (hgiven : g.given? [] old = none) : g'.Laid := by
  intro x hx
  obtain ⟨hne, hlive⟩ := k.contains_iff.1 hx
  obtain ⟨n, ins, l, p, hn, hins, hlx, hp, hy, hv⟩ := hl x hlive
  refine ⟨n.redirect old new, ins, l, p, k.node_redirect hne hn, k.lays hsame hins,
    (k.layout_eq hne).trans hlx, ?_, hy, hv⟩
  rcases hp with rfl | rfl
  · exact .inl rfl
  · exact (k.pattern?_cases [] hgiven n).imp_right Eq.symm

end Replaced

/-- What is known of an identity that is bypassed. -/
structure Bypass (g : Graph) (old new : NodeId) (n : Node) : Prop where
  node : g.node? old = some n
  op : Pass.mayBeIdentity n.op = true
  inner : g.isOutput old = false
  reads : g.input old 0 = .ok new
  layout : ∃ l, g.layout old = .ok l ∧ g.layout new = .ok l ∧ l.isStatic = true

theorem isIdentity_iff : Pass.isIdentity g n = true ↔ Pass.mayBeIdentity n.op = true ∧
    g.isOutput n.id = false ∧ ∃ l, n.layout = some l ∧ l.isStatic = true ∧
      ∃ a, g.input n.id 0 = .ok a ∧ g.layout a = .ok l := by
  rw [Pass.isIdentity]
  split
  · next hop =>
    rw [Bool.or_eq_true, decide_eq_true_eq] at hop
    refine ⟨nofun, fun ⟨hmay, hinner, _⟩ => ?_⟩
    simp [hmay, hinner] at hop
  next hop =>
  rw [Bool.or_eq_true, not_or, decide_eq_true_eq, Bool.not_eq_false, Bool.not_eq_true] at hop
  constructor
  · intro h
    split at h
    · next output input hl hi =>
      simp only [Bool.and_eq_true, beq_iff_eq] at h
      obtain ⟨hstatic, rfl⟩ := h
      obtain ⟨a, ha, hi⟩ := Result.bind_eq_ok.1 hi
      exact ⟨hop.1, hop.2, output, hl, hstatic, a, ha, hi⟩
    · cases h
  · rintro ⟨-, -, l, hl, hstatic, a, ha, hi⟩
    have hi : g.inputLayout n.id 0 = .ok l := Result.bind_eq_ok.2 ⟨a, ha, hi⟩
    simp [hl, hi, hstatic]

theorem bypass_of_isIdentity (hs : g.Sound) (hn : g.node? old = some n)
    (h : Pass.isIdentity g n = true) (hin : g.input old 0 = .ok new) : g.Bypass old new n := by
  obtain rfl := hs.id_eq hn
  obtain ⟨hop, hinner, l, hl, hstatic, a, ha, hi⟩ := isIdentity_iff.1 h
  obtain rfl := Except.ok.inj (hin.symm.trans ha)
  exact ⟨hn, hop, hinner, hin, l, layout_eq_ok.2 ⟨n, hn, hl⟩, hi, hstatic⟩

namespace Bypass

theorem not_source (k : g.Bypass old new n) : n.op.declared? = none := by
  have h := k.op
  cases hop : n.op with
  | input | constant =>
    rw [hop] at h
    cases h
  | permute | reshape | concatenation | crop | reorder | fullyConnected => rfl

theorem given?_eq_none (k : g.Bypass old new n) {values : InputValues}
    (h : values.lookup old = none) : g.given? values old = none := by
  have hd := k.not_source
  rw [given?, k.node, Option.bind_some]
  split
  · next hop => simp [hop, Operation.declared?] at hd
  · exact h

theorem same (k : g.Bypass old new n) : g.layout new = g.layout old := by
  obtain ⟨l, ho, hn, -⟩ := k.layout
  rw [ho, hn]

end Bypass

/-- What bypassing one identity keeps, the pass keeps. -/
theorem removeAlong_induction {I : Graph → Prop}
    (hstep : ∀ {g g' old new n}, I g → g.Bypass old new n →
      g.replace old new true = .ok g' → I g')
    (hsound : ∀ {g}, I g → g.Sound) (hI : I g) (ids : List NodeId) :
    I (Pass.removeAlong ids g).1 := by
  induction ids generalizing g with
  | nil => exact hI
  | cons id ids ih =>
    simp only [Pass.removeAlong]
    split
    · exact hI
    next n hn =>
    split
    · exact ih hI
    next hid =>
    split
    · exact hI
    next g' hrep =>
    obtain ⟨new, hin, hrep⟩ := Result.bind_eq_ok.1 hrep
    have hbypass := bypass_of_isIdentity (hsound hI) (get_eq_ok.1 hn) (by simpa using hid) hin
    exact ih (hstep hI hbypass hrep)

end Graph
end BufferFusion
