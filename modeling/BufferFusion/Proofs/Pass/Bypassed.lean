import BufferFusion.Proofs.Execution.Revalidation
import BufferFusion.Proofs.Pass.Shortcut

/-!
# Which nodes are removed

Removing identities takes out the nodes that are identities in the graph as it is given, however
they follow upon each other. Whoever read one of them reads the first node before it that is none.
After that there are no identities left.
-/
namespace BufferFusion

namespace Graph

variable {g f : Graph} {ρ : NodeId → NodeId} {a x : NodeId} {ids : List NodeId} {n m : Node}

/-- `b` is the first node that is no identity, from `a` on along first inputs. -/
inductive FirstKept (g : Graph) : NodeId → NodeId → Prop
  | stays {a : NodeId} : g.identityAt a = false → FirstKept g a a
  | passes {a p b : NodeId} : g.identityAt a = true → g.input a 0 = .ok p → FirstKept g p b →
      FirstKept g a b

theorem FirstKept.unique {b c : NodeId} (h : g.FirstKept a b) (h' : g.FirstKept a c) : b = c := by
  induction h with
  | stays ha =>
    cases h' with
    | stays => rfl
    | passes ha' => exact absurd (ha.symm.trans ha') Bool.false_ne_true
  | passes ha hp _ ih =>
    cases h' with
    | stays ha' => exact absurd (ha'.symm.trans ha) Bool.false_ne_true
    | passes _ hp' h' => exact ih (Except.ok.inj (hp'.symm.trans hp) ▸ h')

theorem Shortcut.firstKept (k : Shortcut g f ρ) (hs : g.Sound)
    (hmoved : ∀ x, g.contains x = true → (ρ x = x ↔ g.identityAt x = false))
    (ha : g.contains a = true) : g.FirstKept a (ρ a) := by
  induction a using hs.feeds_induction with
  | step a ih =>
    by_cases hρ : ρ a = a
    · rw [hρ]
      exact .stays ((hmoved a ha).1 hρ)
    · obtain ⟨n, hn⟩ := Graph.contains_iff.1 ha
      obtain ⟨-, p, hin, hp⟩ := k.gone hn hρ
      have hid : g.identityAt a = true := by
        rw [← Bool.not_eq_false, ← hmoved a ha]
        exact hρ
      have hslot : n.inputs[0]? = some p := by rw [hin]; rfl
      have hf : g.Feeds p a := .of_input hn hslot
      rw [hp]
      exact .passes hid ((input_eq_ok hn).2 hslot) (ih p hf (hs.live hf))

/-- Where no node of a list is an identity, the pass does nothing. -/
theorem removeAlong_of_no_identity (h : ∀ x ∈ ids, ∃ n, f.node? x = some n ∧
    Pass.isIdentity f n = false) : Pass.removeAlong ids f = (f, .ok false) := by
  induction ids with
  | nil => rfl
  | cons x ids ih =>
    rw [List.forall_mem_cons] at h
    obtain ⟨⟨n, hn, hid⟩, hrest⟩ := h
    simp only [Pass.removeAlong, get_eq_ok.2 hn, hid, if_true, ih hrest]

theorem Sound.any_identityAt (hs : g.Sound) :
    g.order.any g.identityAt = g.nodes.any (Pass.isIdentity g) := by
  rw [Bool.eq_iff_iff, List.any_eq_true, List.any_eq_true]
  constructor
  · rintro ⟨x, -, hx⟩
    obtain ⟨n, hn, hid⟩ := (Option.any_eq_true ..).1 hx
    exact ⟨n, mem_nodes.2 ⟨x, hn⟩, hid⟩
  · rintro ⟨n, hn, hid⟩
    have hn := hs.node_of_mem hn
    refine ⟨n.id, hs.mem_order.2 (contains_iff.2 ⟨n, hn⟩), ?_⟩
    rw [identityAt, hn]
    exact hid

/-- The pass answers, and says whether there were identities. They are gone then and no other node
is. A node that stays is what it was, but for its inputs, each of which is now the first node before
it that was none; the outputs are the same, and a second run finds nothing to do. -/
theorem Reachable.removes_identities (h : g.Reachable) (config : BuildConfig) : ∃ f,
    Pass.removeIdentity.run config g = (f, .ok (g.nodes.any (Pass.isIdentity g))) ∧
      (∀ x, f.contains x = true ↔ g.contains x = true ∧ g.identityAt x = false) ∧
        (∀ x m, f.node? x = some m → ∃ n, g.node? x = some n ∧ m = { n with inputs := m.inputs } ∧
          List.Forall₂ g.FirstKept n.inputs m.inputs) ∧
          (∀ x, x ∈ f.outputs ↔ x ∈ g.outputs) ∧
            ∀ config', Pass.removeIdentity.run config' f = (f, .ok false) := by
  have hs := h.sound
  obtain ⟨f, ρ, hrun, k, hmoved⟩ := hs.removeAlong_order h.listed.marked_nodup
  rw [hs.any_identityAt] at hrun
  refine ⟨f, hrun, fun x => ?_, fun x m hm => ?_, k.outputs, fun _ => ?_⟩
  · rw [k.contains_iff, and_comm]
    exact and_congr_right fun hx => hmoved x hx
  · obtain ⟨-, n, hn, rfl⟩ := k.node hm
    refine ⟨n, hn, rfl, ?_⟩
    rw [Node.reroute, List.forall₂_map_right_iff, List.forall₂_same]
    exact fun a ha => k.firstKept hs hmoved (hs.live ⟨n, hn, ha⟩)
  · refine removeAlong_of_no_identity fun x hx => ?_
    obtain ⟨m, hm⟩ := Graph.contains_iff.1 (k.sound.mem_order.1 hx)
    obtain ⟨hρ, n, hn, rfl⟩ := k.node hm
    have hid := (hmoved x (contains_iff.2 ⟨n, hn⟩)).1 hρ
    rw [identityAt, hn, Option.any_some] at hid
    exact ⟨n.reroute ρ, hm, by rw [k.isIdentity_eq hs hρ hn, hid]⟩

/-- A copy of a matrix and a permute of the copy that permutes nothing, joined with each other. -/
def copiesSample : Graph :=
  (((empty.place "matrix" (.input (.plain (.ofSizes [2, 2]) .f32)) []).place "copy"
    (.reorder .bfyx .f32) [0]).place "same" (.permute [0, 1]) [1]).place "joined"
      (.concatenation 0) [2, 1]

/-- The sample with inferred layouts. -/
def inferredCopies : Graph := (InferenceTable.standard.inferGraph [] copiesSample).1

theorem reachable_inferredCopies : inferredCopies.Reachable :=
  (Built.empty.place rfl |>.place rfl |>.place rfl |>.place rfl).reachable.inferAlong _ _ _

/-- Both slots of the last node end up with the matrix. -/
theorem removes_identities_inferredCopies : ∃ f m,
    Pass.removeIdentity.run .standard inferredCopies = (f, .ok true) ∧ f.contains 1 = false ∧
      f.contains 2 = false ∧ f.node? 3 = some m ∧ m.inputs = [0, 0] ∧
        Pass.removeIdentity.run .standard f = (f, .ok false) := by
  obtain ⟨f, hrun, hlive, hnode, -, hagain⟩ :=
    reachable_inferredCopies.removes_identities .standard
  have hgone : ∀ x, inferredCopies.identityAt x = true → f.contains x = false := fun x hx => by
    rw [← Bool.not_eq_true, hlive, hx]
    exact fun h => Bool.false_ne_true h.2.symm
  have hcopy : inferredCopies.FirstKept 1 0 := .passes rfl rfl (.stays rfl)
  obtain ⟨m, hm⟩ := contains_iff.1 ((hlive 3).2 ⟨rfl, rfl⟩)
  obtain ⟨n, hn, -, hins⟩ := hnode 3 m hm
  obtain rfl := Option.some.inj hn
  have hins : List.Forall₂ inferredCopies.FirstKept [2, 1] m.inputs := hins
  refine ⟨f, m, hrun, hgone 1 rfl, hgone 2 rfl, hm, ?_, hagain .standard⟩
  obtain ⟨a, _, hfirst, hrest, hm'⟩ := List.forall₂_cons_left_iff.1 hins
  obtain ⟨b, _, hsecond, hnil, rfl⟩ := List.forall₂_cons_left_iff.1 hrest
  rw [hm', List.forall₂_nil_left_iff.1 hnil, hsecond.unique hcopy,
    hfirst.unique (.passes rfl rfl hcopy)]

end Graph
end BufferFusion
