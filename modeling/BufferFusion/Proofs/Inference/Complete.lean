import BufferFusion.Proofs.Inference.Identity

/-!
# What inference finds

Layouts that fit, each what its node's operation yields from the layouts of the inputs, are found by
inference, and by the resolution of a graph where their dims are known.
-/
namespace BufferFusion.Graph

variable {g h b r : Graph} {tensors : List (NodeId × Tensor)} {values : InputValues}
  {L : NodeId → Layout} {id x : NodeId} {n : Node} {done ids : List NodeId}

/-- The layouts are what the operations yield. -/
def Fitting (g : Graph) (values : InputValues) (L : NodeId → Layout) : Prop :=
  ∀ {x n}, g.node? x = some n →
    Infer.Yields (g.pattern? values n) n.op (n.inputs.map L) (L x) ∧ (L x).isValid = true

/-- Inference underway: the nodes that are done have the layouts that fit. -/
structure Finding (g h : Graph) (L : NodeId → Layout) (done : List NodeId) : Prop where
  relaid : g.Relaid h
  op : ∀ x, (h.node? x).map (·.op) = (g.node? x).map (·.op)
  found : ∀ x ∈ done, h.layout x = .ok (L x)

theorem Finding.step (k : Finding g h L done) (hs : g.Sound) (hfit : g.Fitting values L)
    (hlive : g.contains id = true) (hready : ∀ a, g.Feeds a id → a ∈ done) :
    InferenceTable.standard.inferNode h values id = .ok (L id) ∧
      Finding g (h.setLayout id (L id)) L (id :: done) := by
  have hsh := k.relaid.wiring.sound hs
  obtain ⟨n, hn⟩ := contains_iff.1 hlive
  obtain ⟨m, hm, -, -, hin, -⟩ := k.relaid.wiring.node hn
  have hop : m.op = n.op := op_eq_of_map (k.op id) hn hm
  have hlays : h.Lays m.inputs (n.inputs.map L) := by
    rw [Lays, hin, List.forall₂_map_right_iff, List.forall₂_same]
    exact fun a ha => k.found a (hready a ⟨n, hn, ha⟩)
  obtain ⟨hy, hv⟩ := hfit hn
  have hpattern : h.pattern? values m = g.pattern? values n := by
    rw [k.relaid.wiring.pattern?_eq, pattern?, pattern?, hin]
  rw [← hop, ← hpattern] at hy
  refine ⟨(inferNode_eq_ok hsh hm hlays).2 ⟨hy, hv⟩, k.relaid.trans (relaid_setLayout h id _),
    fun x => ?_, fun x hx => ?_⟩
  · rw [node?_setLayout, ← k.op x]
    split <;> simp [Function.comp_def]
  · by_cases hid : x = id
    · subst hid
      exact layout_setLayout_self (contains_iff.2 ⟨m, hm⟩)
    · rw [layout_setLayout_of_ne hid]
      exact k.found x ((List.mem_cons.1 hx).resolve_left hid)

theorem Finding.along (k : Finding g h L done) (hs : g.Sound) (hfit : g.Fitting values L)
    (ho : g.Ordered done ids) : ∃ h' changed,
      InferenceTable.standard.inferAlong values ids h = (h', .ok changed) ∧
        Finding g h' L (ids.reverse ++ done) := by
  induction ids generalizing h done with
  | nil => exact ⟨h, false, rfl, k⟩
  | cons id ids ih =>
    obtain ⟨-, hlive, hready, hrest⟩ := ho
    obtain ⟨hinfer, k'⟩ := k.step hs hfit hlive hready
    obtain ⟨h', changed, hall, k''⟩ := ih k' hrest
    rw [List.reverse_cons, List.append_assoc, List.singleton_append, inferAlong_cons hinfer, hall]
    exact ⟨h', _, rfl, k''⟩

/-- Inference finds the layouts that fit. -/
theorem Sound.inferGraph_ok (hs : g.Sound) (hfit : g.Fitting values L) : ∃ g' changed,
    InferenceTable.standard.inferGraph values g = (g', .ok changed) ∧ g.Relaid g' ∧
      ∀ x, g.contains x = true → g'.layout x = .ok (L x) := by
  have k : Finding g g L [] := ⟨.refl g, fun _ => rfl, by simp⟩
  obtain ⟨g', changed, hinfer, k'⟩ := k.along hs hfit hs.ordered
  exact ⟨g', changed, hinfer, k'.relaid, fun x hx => k'.found x (by simpa using hs.mem_order.2 hx)⟩

/-- Inputs are bound where each of them can be. -/
theorem bindInputs_ok {ns : List Node} (h : ∀ n ∈ ns, ∃ realized lanes, Bound tensors n realized lanes) :
    ∃ b values, g.bindInputs tensors ns = (b, .ok values) := by
  induction ns generalizing g with
  | nil => exact ⟨g, [], rfl⟩
  | cons n ns ih =>
    rw [List.forall_mem_cons] at h
    obtain ⟨⟨realized, lanes, declared, t, hop, ht, hb⟩, hrest⟩ := h
    obtain ⟨b, values, hall⟩ := @ih (g.setOp n.id (.input realized)) hrest
    refine ⟨b, (n.id, lanes) :: values, ?_⟩
    simp only [bindInputs, hop, Operation.declared?, ht, hb, hall]
    rfl

/-- Where the inputs can be bound, a graph is resolved to layouts that fit, if their dims are
known. -/
theorem Sound.resolve_ok (hs : g.Sound)
    (hbound : ∀ {x n d}, g.node? x = some n → n.op = .input d →
      ∃ realized lanes, Bound tensors n realized lanes)
    (hfit : ∀ {b values}, BoundInputs g tensors values b → b.Fitting values L)
    (hstatic : ∀ {x}, g.contains x = true → (L x).isStatic = true) :
    ∃ r values, g.resolve tensors = (r, .ok values) ∧
      ∀ x, g.contains x = true → r.layout x = .ok (L x) := by
  obtain ⟨b, values, hb⟩ := @bindInputs_ok g tensors g.inputNodes fun n hn => by
    obtain ⟨hn, d, hd⟩ := hs.mem_inputNodes.1 hn
    exact hbound hn hd
  have k := hs.boundInputs hb
  obtain ⟨r, changed, hinfer, hrelaid, hlayout⟩ :=
    (k.relaid.wiring.sound hs).inferGraph_ok (hfit k)
  have hlive : ∀ {x}, r.contains x = g.contains x := fun {x} => by
    rw [← hrelaid.wiring.contains_eq, ← k.relaid.wiring.contains_eq]
  have hlayout : ∀ x, g.contains x = true → r.layout x = .ok (L x) := fun x hx =>
    hlayout x (by rwa [← k.relaid.wiring.contains_eq])
  have hcheck : r.checkResolved = .ok () := by
    rw [checkResolved, List.find?_eq_none.2]
    intro n hn
    obtain ⟨x, hn⟩ := mem_nodes.1 hn
    have hx : g.contains x = true := hlive ▸ contains_iff.2 ⟨n, hn⟩
    obtain ⟨m, hm, hml⟩ := layout_eq_ok.1 (hlayout x hx)
    obtain rfl := Option.some.inj (hn.symm.trans hm)
    simp [hml, hstatic hx]
  refine ⟨r, values, ?_, hlayout⟩
  simp only [resolve, hb, hinfer, hcheck, bind, Except.bind]
  rfl

end BufferFusion.Graph
