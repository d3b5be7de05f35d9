import BufferFusion.Fusion.Rules
import BufferFusion.Proofs.Graph.Wiring

/-!
# What views propose

The proposals of reshapes, permutes, reorders and crops: the node reads the buffer of its first
input, and the layouts on both sides are why it may.
-/
namespace BufferFusion.Fuse

variable {g : Graph} {n : Node} {p : Proposal} {input output : Layout}

/-- Why an output may be read out of its input's buffer, by the kind of operation. -/
inductive ViewReason (id : NodeId) (input output : Layout) (p : Proposal) : Operation → Prop
  | reshape {target copyZeros compared} (plain : viewObstacle? input output = none)
      (flat : compareFlat input output = .ok compared) (same : compared.isCompatible = true)
      (offset : p.offset = 0) (layouts : p.layouts = [])
      (assumption : p.assumption = if compared.isPending then some .elementCount else none) :
      ViewReason id input output p (.reshape target copyZeros)
  | permute {order compared} (plain : viewObstacle? input output = none)
      (ordered : orderObstacle? input.shape.dims none false order = .ok none)
      (flat : compareFlat input output = .ok compared) (same : compared.isCompatible = true)
      (offset : p.offset = 0) (layouts : p.layouts = [])
      (assumption : p.assumption = if compared.isPending then some .elementCount else none) :
      ViewReason id input output p (.permute order)
  | reorder {format element} (unpadded : input.padding.isZero = true)
      (same : (input.compare output).isCompatible = true)
      (offset : p.offset = 0) (layouts : p.layouts = [])
      (assumption : p.assumption =
        if (input.compare output).isPending then some .sameLayout else none) :
      ViewReason id input output p (.reorder format element)
  | crop {offsets sizes axes} (element : input.element = output.element)
      (format : input.format = output.format) (settled : input.padding.hasDynamic = false)
      (window : windowPadding input.shape.dims input.padding.axes offsets sizes = .ok axes)
      (allocatable : (output.withPadding ⟨axes⟩).isAllocatable = true)
      (offset : (if !input.isStatic then .ok 0 else windowOffset input offsets) = .ok p.offset)
      (layouts : p.layouts = [(id, output.withPadding ⟨axes⟩)])
      (assumption : p.assumption = if !input.isStatic then some .cropWindow else none) :
      ViewReason id input output p (.crop offsets sizes)

/-- A proposal to read a node's output out of the buffer of its first input. -/
structure ViewProposal (g : Graph) (n : Node) (p : Proposal) (producer : NodeId)
    (input output : Layout) : Prop where
  reads : g.input n.id 0 = .ok producer
  input_layout : g.layout producer = .ok input
  output_layout : g.layout n.id = .ok output
  into : p.into = producer
  edges : p.edges = [⟨producer, n.id, .view p.offset⟩]
  reason : ViewReason n.id input output p n.op

theorem inputLayout_eq_ok {id : NodeId} {slot : Nat} {l : Layout} :
    g.inputLayout id slot = .ok l ↔ ∃ a, g.input id slot = .ok a ∧ g.layout a = .ok l :=
  Result.bind_eq_ok

theorem view_eq_eligible {compared : Compatibility} {a : Assumption} :
    view ⟨g, n⟩ compared a = .ok (.eligible p) ↔ compared.isCompatible = true ∧
      ∃ producer, g.input n.id 0 = .ok producer ∧
        p = { into := producer, offset := 0, edges := [⟨producer, n.id, .view 0⟩], layouts := []
              assumption := if compared.isPending then some a else none } := by
  simp only [view, reject]
  split
  · next h => simp [h]
  · next h =>
    simp only [FusionContext.producer, Result.bind_eq_ok, pure, Except.pure, Except.ok.injEq,
      Decision.eligible.injEq, (by simpa using h : compared.isCompatible = true), true_and,
      eq_comm (a := p)]

theorem reshape_eligible {target : ReshapeTarget} {copyZeros : Bool}
    (hop : n.op = .reshape target copyZeros) (h : reshape ⟨g, n⟩ = .ok (.eligible p)) :
    ∃ producer input output, ViewProposal g n p producer input output := by
  simp only [reshape, hop] at h
  obtain ⟨input, hin, h⟩ := Result.bind_eq_ok.1 h
  obtain ⟨output, hout, h⟩ := Result.bind_eq_ok.1 h
  obtain ⟨producer, hp, hin⟩ := inputLayout_eq_ok.1 hin
  split at h
  · cases h
  · next hplain =>
    obtain ⟨compared, hflat, h⟩ := Result.bind_eq_ok.1 h
    obtain ⟨hsame, _, hp', rfl⟩ := view_eq_eligible.1 h
    obtain rfl := Except.ok.inj (hp.symm.trans hp')
    refine ⟨producer, input, output, hp, hin, hout, rfl, rfl, ?_⟩
    rw [hop]
    exact .reshape hplain hflat hsame rfl rfl rfl

theorem permute_eligible {order : List Nat} (hop : n.op = .permute order)
    (h : permute ⟨g, n⟩ = .ok (.eligible p)) :
    ∃ producer input output, ViewProposal g n p producer input output := by
  simp only [permute, hop] at h
  obtain ⟨input, hin, h⟩ := Result.bind_eq_ok.1 h
  obtain ⟨output, hout, h⟩ := Result.bind_eq_ok.1 h
  obtain ⟨producer, hp, hin⟩ := inputLayout_eq_ok.1 hin
  split at h
  · cases h
  · next hplain =>
    obtain ⟨obstacle, hord, h⟩ := Result.bind_eq_ok.1 h
    split at h
    · cases h
    · obtain ⟨compared, hflat, h⟩ := Result.bind_eq_ok.1 h
      obtain ⟨hsame, _, hp', rfl⟩ := view_eq_eligible.1 h
      obtain rfl := Except.ok.inj (hp.symm.trans hp')
      refine ⟨producer, input, output, hp, hin, hout, rfl, rfl, ?_⟩
      rw [hop]
      exact .permute hplain hord hflat hsame rfl rfl rfl

theorem reorder_eligible {format : Format} {element : ElementType}
    (hop : n.op = .reorder format element) (h : reorder ⟨g, n⟩ = .ok (.eligible p)) :
    ∃ producer input output, ViewProposal g n p producer input output := by
  simp only [reorder, hop] at h
  obtain ⟨input, hin, h⟩ := Result.bind_eq_ok.1 h
  obtain ⟨output, hout, h⟩ := Result.bind_eq_ok.1 h
  obtain ⟨producer, hp, hin⟩ := inputLayout_eq_ok.1 hin
  split at h
  · cases h
  · next hzero =>
    obtain ⟨hsame, _, hp', rfl⟩ := view_eq_eligible.1 h
    obtain rfl := Except.ok.inj (hp.symm.trans hp')
    refine ⟨producer, input, output, hp, hin, hout, rfl, rfl, ?_⟩
    rw [hop]
    exact .reorder (by simpa using hzero) hsame rfl rfl rfl

theorem crop_eligible {offsets sizes : List Nat} (hop : n.op = .crop offsets sizes)
    (h : crop ⟨g, n⟩ = .ok (.eligible p)) :
    ∃ producer input output, ViewProposal g n p producer input output := by
  simp only [crop, hop] at h
  obtain ⟨input, hin, h⟩ := Result.bind_eq_ok.1 h
  obtain ⟨output, hout, h⟩ := Result.bind_eq_ok.1 h
  obtain ⟨producer, hp, hin⟩ := inputLayout_eq_ok.1 hin
  split at h
  · cases h
  next hmatch =>
  split at h
  · cases h
  next hdyn =>
  obtain ⟨axes, haxes, h⟩ := Result.bind_eq_ok.1 h
  split at h
  · cases h
  next halloc =>
  obtain ⟨offset, hoff, h⟩ : ∃ offset,
      (if !input.isStatic then .ok 0 else windowOffset input offsets) = .ok offset ∧
        p = { into := producer, offset, edges := [⟨producer, n.id, .view offset⟩]
              layouts := [(n.id, output.withPadding ⟨axes⟩)]
              assumption := if !input.isStatic then some .cropWindow else none } := by
    split at h
    · next hs =>
      obtain ⟨_, ho, h⟩ := Result.bind_eq_ok.1 h
      obtain rfl := Except.ok.inj ho
      obtain ⟨_, hp', h⟩ := Result.bind_eq_ok.1 h
      obtain rfl := Except.ok.inj (hp.symm.trans hp')
      rw [if_pos hs, if_pos hs]
      exact ⟨0, rfl, (Decision.eligible.inj (Except.ok.inj h)).symm⟩
    · next hs =>
      obtain ⟨offset, ho, h⟩ := Result.bind_eq_ok.1 h
      obtain ⟨_, hp', h⟩ := Result.bind_eq_ok.1 h
      obtain rfl := Except.ok.inj (hp.symm.trans hp')
      rw [if_neg hs, if_neg hs]
      exact ⟨offset, ho, (Decision.eligible.inj (Except.ok.inj h)).symm⟩
  subst h
  rw [not_or, not_not, not_not] at hmatch
  refine ⟨producer, input, output, hp, hin, hout, rfl, rfl, ?_⟩
  rw [hop]
  exact .crop hmatch.1 hmatch.2 (by simpa using hdyn) haxes (by simpa using halloc) hoff rfl rfl

/-- A view is no concatenation. -/
theorem ViewReason.not_concatenation {id : NodeId} {op : Operation}
    (h : ViewReason id input output p op) (axis : Nat) : op ≠ .concatenation axis := by
  cases h <;> simp

/-- A view changes no layout but its own, and of that only the padding. -/
theorem ViewReason.of_mem_layouts {id : NodeId} {op : Operation}
    (h : ViewReason id input output p op) {x : NodeId} {l : Layout} (hx : (x, l) ∈ p.layouts) :
    x = id ∧ ∃ padding, l = output.withPadding padding := by
  cases h with
  | crop _ _ _ _ _ _ layouts _ =>
    rw [layouts, List.mem_singleton] at hx
    obtain ⟨rfl, rfl⟩ := Prod.mk.inj hx
    exact ⟨rfl, _, rfl⟩
  | reshape _ _ _ _ layouts _ | permute _ _ _ _ _ layouts _ | reorder _ _ _ layouts _ =>
    rw [layouts] at hx
    cases hx

end BufferFusion.Fuse
