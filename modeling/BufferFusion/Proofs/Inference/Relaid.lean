import BufferFusion.Execution.Resolve
import BufferFusion.Proofs.Graph.Wiring

/-!
# Inference leaves decisions alone

Inferring a graph sets layouts, and binding tensors sets the layouts that inputs declare. Neither
touches wiring, states, assumptions or shared buffers.
-/
namespace BufferFusion.Graph

variable {g : Graph}

theorem relaid_inferAlong (t : InferenceTable) (values : InputValues) (ids : List NodeId)
    (g : Graph) : g.Relaid (t.inferAlong values ids g).1 := by
  induction ids generalizing g with
  | nil => exact .refl g
  | cons id ids ih =>
    simp only [InferenceTable.inferAlong]
    split
    · exact .refl g
    · split
      · exact ih g
      · exact (relaid_setLayout g id _).trans (ih _)

theorem map_setLayout {α : Type} {f : Node → α} (hf : ∀ n l, f { n with layout := some l } = f n)
    (g : Graph) (id x : NodeId) (l : Layout) :
    ((g.setLayout id l).node? x).map f = (g.node? x).map f := by
  rw [node?_setLayout]
  split <;> simp [Function.comp_def, hf]

/-- Inference leaves alone whatever of a node is not its layout. -/
theorem map_inferAlong {α : Type} {f : Node → α}
    (hf : ∀ n l, f { n with layout := some l } = f n) (t : InferenceTable) (values : InputValues)
    (ids : List NodeId) (g : Graph) (x : NodeId) :
    ((t.inferAlong values ids g).1.node? x).map f = (g.node? x).map f := by
  induction ids generalizing g with
  | nil => rfl
  | cons id ids ih =>
    simp only [InferenceTable.inferAlong]
    split
    · rfl
    · split
      · exact ih g
      · exact (ih _).trans (map_setLayout hf g id x _)

theorem map_inferGraph {α : Type} {f : Node → α}
    (hf : ∀ n l, f { n with layout := some l } = f n) {t : InferenceTable} {values : InputValues}
    {g' : Graph} {res : Result Bool} (hi : t.inferGraph values g = (g', res)) (x : NodeId) :
    (g'.node? x).map f = (g.node? x).map f := by
  have := map_inferAlong hf t values g.order g x
  rwa [show (t.inferAlong values g.order g).1 = g' from congrArg Prod.fst hi] at this

/-- The node is an input, whatever layout it declares. -/
def IsInput (g : Graph) (id : NodeId) : Prop :=
  ∀ n, g.node? id = some n → ∃ l, n.op = .input l

theorem Relaid.isInput {h : Graph} (r : g.Relaid h) {id : NodeId} (hi : g.IsInput id) :
    h.IsInput id := by
  intro n hn
  obtain ⟨m, hm, -, -, -, hop⟩ := r.wiring.symm.node hn
  obtain ⟨l, hl⟩ := hi m hm
  rcases hop.eq_or_input with he | ⟨_, l', -, hn'⟩
  · exact ⟨l, he.symm.trans hl⟩
  · exact ⟨l', hn'⟩

theorem Sound.isInput (hs : g.Sound) {n : Node} (hn : n ∈ g.inputNodes) : g.IsInput n.id := by
  obtain ⟨hmem, htag⟩ := List.mem_filter.1 hn
  intro m hm
  obtain rfl := Option.some.inj ((hs.node_of_mem hmem).symm.trans hm)
  cases hop : n.op with
  | input l => exact ⟨l, rfl⟩
  | constant | permute | reshape | concatenation | crop | reorder | fullyConnected =>
    simp [Node.tag, hop, Operation.tag] at htag

theorem relaid_bindInputs (tensors : List (NodeId × Tensor)) {ns : List Node}
    (hns : ∀ n ∈ ns, g.IsInput n.id) : g.Relaid (g.bindInputs tensors ns).1 := by
  induction ns generalizing g with
  | nil => exact .refl g
  | cons n ns ih =>
    have hrest : ∀ m ∈ ns, g.IsInput m.id := fun m hm => hns m (List.mem_cons_of_mem _ hm)
    simp only [bindInputs]
    split
    · exact ih hrest
    · exact .refl g
    · split
      · exact .refl g
      · next realized _ _ =>
        have r := relaid_setInput (hns n List.mem_cons_self) realized
        exact r.trans (ih fun m hm => r.isInput (hrest m hm))

/-- Resolving a graph changes layouts only. -/
theorem Sound.relaid_resolve (hs : g.Sound) (tensors : List (NodeId × Tensor)) :
    g.Relaid (g.resolve tensors).1 := by
  have r := relaid_bindInputs tensors fun n hn => hs.isInput hn
  simp only [resolve]
  split
  · next hb => rwa [hb] at r
  · next hb =>
    rw [hb] at r
    exact r.trans (relaid_inferAlong .standard _ _ _)

end BufferFusion.Graph
