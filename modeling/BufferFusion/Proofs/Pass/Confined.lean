import BufferFusion.Proofs.Pass.Orders

/-!
# What fusion touches

Fusion of a graph that was just inferred decides about every node, and changes nothing else but the
padding of windows and slices. So there is nothing left to decide: fusing once more does nothing.
-/
namespace BufferFusion

open Graph Pass

variable {b f g : Graph} {d : NodeId → Decision} {ids : List NodeId} {x : NodeId}

/-- The node as it was, but for what analyses find out about it. -/
structure Node.Reanalyzed (n m : Node) : Prop where
  id : m.id = n.id
  name : m.name = n.name
  op : m.op = n.op
  inputs : m.inputs = n.inputs

theorem Node.Reanalyzed.refl (n : Node) : n.Reanalyzed n := ⟨rfl, rfl, rfl, rfl⟩

theorem Node.Reanalyzed.trans {n m k : Node} (h : n.Reanalyzed m) (h' : m.Reanalyzed k) :
    n.Reanalyzed k :=
  ⟨h'.id.trans h.id, h'.name.trans h.name, h'.op.trans h.op, h'.inputs.trans h.inputs⟩

theorem Decision.reanalyzed_act (d : Decision) (id x : NodeId) (n : Node) :
    n.Reanalyzed (d.act id x n) := by
  rw [Decision.act]
  split <;> exact ⟨rfl, rfl, rfl, rfl⟩

theorem Decision.isTerminal_state (d : Decision) : d.state.isTerminal = true := by
  cases d <;> rfl

/-- Nodes that are decided about are left alone. -/
theorem Pass.fuseAlong_of_terminal (t : FusionRules) (ids : List NodeId)
    (h : ∀ x n, g.node? x = some n → n.state.isTerminal = true) :
    fuseAlong t ids g = (g, .ok false) := by
  induction ids with
  | nil => rfl
  | cons id ids ih =>
    rw [fuseAlong]
    split
    · exact ih
    · next n hn => rw [if_pos (h id n hn), ih]

namespace Graph

theorem reanalyzed_outcome (b : Graph) (d : NodeId → Decision) (done : List NodeId) (x : NodeId)
    (n : Node) : n.Reanalyzed (b.outcome d done x n) := by
  have hown : n.Reanalyzed (if x ∈ done then (d x).act x x n else n) := by
    split
    · exact Decision.reanalyzed_act ..
    · exact .refl n
  simp only [outcome]
  split
  · split
    · exact hown.trans (Decision.reanalyzed_act ..)
    · exact hown
  · exact hown

/-- A graph without nodes has nothing to list. -/
theorem Sound.order_isEmpty (hs : g.Sound) : g.order.isEmpty = g.nodes.isEmpty := by
  rw [Bool.eq_iff_iff, List.isEmpty_iff, List.isEmpty_iff, List.eq_nil_iff_forall_not_mem,
    List.eq_nil_iff_forall_not_mem]
  constructor
  · intro h n hn
    exact h n.id (hs.mem_order.2 (contains_iff.2 ⟨n, hs.node_of_mem hn⟩))
  · intro h x hx
    obtain ⟨n, hn⟩ := contains_iff.1 (hs.mem_order.1 hx)
    exact h n (mem_nodes.2 ⟨x, hn⟩)

/-- An input of a concatenation that is done in place. -/
def Joined (g : Graph) (x : NodeId) : Prop :=
  ∃ owner axis, (∃ into offset, g.state? owner = some (.optimized into offset)) ∧
    g.Joins owner axis ∧ g.Feeds x owner

theorem SliceOf.joined {owner : NodeId} (h : g.SliceOf x owner) (k : g.Linked) (hs : g.Sound) :
    g.Joined x := by
  obtain ⟨⟨offset, hst⟩, hf, -⟩ := h
  obtain ⟨-, axis, hjoins, -⟩ := k.inPlace_of_self hs hst
  exact ⟨owner, axis, ⟨owner, offset, hst⟩, hjoins, hf⟩

/-- What fusion makes of a node: it decides about it, and adds padding to the windows of optimized
crops and to the inputs of optimized concatenations only. -/
structure Confined (f : Graph) (x : NodeId) (n m : Node) : Prop where
  reanalyzed : n.Reanalyzed m
  terminal : m.state.isTerminal = true
  layout : ∃ l padding, n.layout = some l ∧ m.layout = some (l.withPadding padding) ∧
    (padding = l.padding ∨ f.Windowed x ∨ f.Joined x)

namespace Follows

variable {done : List NodeId} {n : Node}

theorem confined (k : b.Follows d f done) (hu : b.Unfused) (hx : x ∈ done)
    (hn : b.node? x = some n) : ∃ m, f.node? x = some m ∧ f.Confined x n m := by
  have hm : f.node? x = some (b.outcome d done x n) := by rw [k.node, hn, Option.map_some]
  refine ⟨_, hm, reanalyzed_outcome .., ?_, ?_⟩
  · have hst := k.state?_of_mem hu.sound hx
    rw [state?, hm, hn, Option.map_some, Option.map_some] at hst
    rw [Option.some.inj hst]
    exact Decision.isTerminal_state _
  · obtain ⟨n', -, l, -, hn', -, hl, -⟩ := hu.yielded x (contains_iff.2 ⟨n, hn⟩)
    obtain ⟨padding, hfl, -⟩ := k.fused.padded.layout hl
    obtain ⟨m, hm', hml⟩ := layout_eq_ok.1 hfl
    obtain rfl := Option.some.inj (hm.symm.trans hm')
    obtain ⟨n₁, hn₁, hnl⟩ := layout_eq_ok.1 hl
    obtain rfl := Option.some.inj (hn.symm.trans hn₁)
    refine ⟨l, padding, hnl, hml, ?_⟩
    rcases k.fused.padded.unpadded hfl with hz | ⟨-, hw⟩ | ⟨owner, -, hsl⟩
    · exact .inl (hz.trans (hu.yielded.layout hl).1.symm)
    · exact .inr (.inl hw)
    · exact .inr (.inr (hsl.joined k.fused.fusing.linked (k.wiring.symm.sound hu.sound)))

end Follows

/-- Fusion of a graph that was just inferred ends with every node decided about, having changed
decisions and padding only, and fusing the result once more changes nothing, as long as no size
overflows. -/
theorem Sound.fuses {g₀ : Graph} (hs : g₀.Sound) {values : InputValues} {changed : Bool}
    (hi : InferenceTable.standard.inferGraph values g₀ = (g, .ok changed))
    (hst : ∀ x n, g.node? x = some n → n.state = .unanalyzed) (he : g.sharing.edges = [])
    {config : BuildConfig}
    (hov : ((Pass.fusing .standard).run config g).2 ≠ .error (.fault .overflow)) :
    ∃ f, (Pass.fusing .standard).run config g = (f, .ok (!g.nodes.isEmpty)) ∧
      f.vacant = g.vacant ∧ f.edges = g.edges ∧ f.names = g.names ∧ f.marked = g.marked ∧
        f.outputs = g.outputs ∧ f.slots.length = g.slots.length ∧
          (∀ x, g.node? x = none → f.node? x = none) ∧
            (∀ x n, g.node? x = some n → ∃ m, f.node? x = some m ∧ f.Confined x n m) ∧
              ∀ config', (Pass.fusing .standard).run config' f = (f, .ok false) := by
  have hu := hs.unfused hi hst he
  have ho := hu.sound.ordered
  obtain ⟨d, -, hd⟩ := (hu.follows fun _ => .rejected .noFusionRule).exists_decided hu ho hov
  obtain ⟨f, hf, k⟩ := (hu.follows d).along hu ho hd
  rw [List.append_nil] at k
  have hnode : ∀ x n, g.node? x = some n → ∃ m, f.node? x = some m ∧ f.Confined x n m :=
    fun x n hn => k.confined hu
      (List.mem_reverse.2 (hu.sound.mem_order.2 (contains_iff.2 ⟨n, hn⟩))) hn
  have hnone : ∀ x, g.node? x = none → f.node? x = none := fun x hx => by
    rw [k.node, hx, Option.map_none]
  have hterm : ∀ x m, f.node? x = some m → m.state.isTerminal = true := by
    intro x m hm
    cases hx : g.node? x with
    | none => simp [hnone x hx] at hm
    | some n =>
      obtain ⟨m', hm', hc⟩ := hnode x n hx
      obtain rfl := Option.some.inj (hm.symm.trans hm')
      exact hc.terminal
  have hw := k.wiring
  refine ⟨f, ?_, hw.vacant, hw.edges, hw.names, hw.marked, hw.outputs_eq, hw.slots_length, hnone,
    hnode, fun _ => fuseAlong_of_terminal _ _ hterm⟩
  rw [← hu.sound.order_isEmpty]
  exact hf

/-- Fusion of the sample. -/
theorem fuses_sample : ∃ f, (Pass.fusing .standard).run .standard inferredSample = (f, .ok true) ∧
    (∀ x n, inferredSample.node? x = some n → ∃ m, f.node? x = some m ∧ f.Confined x n m) ∧
      (Pass.fusing .standard).run .standard f = (f, .ok false) := by
  have hi : InferenceTable.standard.inferGraph [] sample = (inferredSample, .ok true) := rfl
  have hr := relaid_inferAlong .standard [] sample.order sample
  have hok : ((Pass.fusing .standard).run .standard inferredSample).2 = .ok true := rfl
  have hov : ((Pass.fusing .standard).run .standard inferredSample).2 ≠
      .error (.fault .overflow) := by
    rw [hok]
    nofun
  obtain ⟨f, hf, -, -, -, -, -, -, -, hnode, hagain⟩ := built_sample.sound.fuses hi
    (fun x n hn => (built_sample.fresh.relaid hr).state hn) rfl hov
  exact ⟨f, hf, hnode, hagain .standard⟩

end Graph
end BufferFusion
