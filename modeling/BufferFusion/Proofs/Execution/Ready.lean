import BufferFusion.Proofs.Execution.Revisit

/-!
# Graphs that are ready to run

What resolving and rechecking leave for the kernels: every shape and all padding is known, each
layout is what its operation yields, and every decision that is left holds of the layouts.
-/
namespace BufferFusion

open Graph Fuse

variable {b f r g : Graph} {tensors : List (NodeId × Tensor)} {values : InputValues}
  {done : List NodeId} {id x : NodeId}

/-- A graph whose kernels can run. -/
structure Ready (g : Graph) (values : InputValues) : Prop where
  sound : g.Sound
  linked : g.Linked
  inferred : ∀ {id n}, g.node? id = some n → ∃ ins l, g.Lays n.inputs ins ∧ g.layout id = .ok l ∧
    Infer.Yields (g.pattern? values n) n.op (ins.map Layout.bare) l.bare
  static : ∀ {id l}, g.layout id = .ok l → l.isStatic = true
  allocatable : ∀ {id l}, g.layout id = .ok l → l.isAllocatable = true
  stands : ∀ {id into offset}, g.state? id = some (.optimized into offset) → ∃ p, g.Stands id p
  /-- Padding is found on windows and on slices only. -/
  unpadded : ∀ {id l}, g.layout id = .ok l → l.padding = .zero l.rank ∨ g.Windowed id ∨
    ∃ owner, g.SliceOf id owner

/-- The extents before a slice, and those after it, are known. -/
theorem Dim.slicePadding_known (before after : List Nat) :
    slicePadding (total (before.map known)) (total (after.map known)) =
      .fixed before.sum after.sum := by
  rw [total_known, total_known]
  rfl

theorem Padding.hasDynamic_set_fixed (rank axis lower upper : Nat) :
    ((Padding.zero rank).set axis (.fixed lower upper)).hasDynamic = false := by
  rw [hasDynamic, List.any_eq_false]
  intro a ha
  simp only [set, zero] at ha
  rcases List.mem_or_eq_of_mem_set ha with ha | rfl
  · obtain rfl := List.eq_of_mem_replicate ha
    simp [AxisPadding.zero]
  · simp [AxisPadding.fixed]

namespace Graph

variable {p : Proposal}

theorem InPlace.dims {n : Node} {axis : Nat} {output : Layout} {extents : List Dim}
    (k : g.InPlace n axis output extents) :
    List.Forall₂ (fun m d => g.dim? axis m = some d) n.inputs extents := by
  refine List.forall₂_iff_get.2 ⟨k.length_extents.symm, fun i h₁ h₂ => ?_⟩
  obtain ⟨l, extent, hl, -, -, hd, he, -⟩ := k.slice (List.getElem?_eq_getElem h₁)
  rw [List.getElem?_eq_getElem h₂] at he
  exact dim?_eq_some.2 ⟨l, hl, hd.trans he.symm⟩

end Graph

namespace Ready

variable (k : Ready g values)

include k

theorem valid {l : Layout} (hl : g.layout id = .ok l) : l.isValid = true :=
  Layout.isValid_of_isAllocatable (k.allocatable hl)

theorem layout_ok (hid : g.contains id = true) : ∃ l, g.layout id = .ok l := by
  obtain ⟨n, hn⟩ := contains_iff.1 hid
  obtain ⟨_, l, -, hl, -⟩ := k.inferred hn
  exact ⟨l, hl⟩

/-- What a node yields from its first input. -/
theorem yields {n : Node} {into : NodeId} {input output : Layout} (hn : g.node? id = some n)
    (hin : g.input id 0 = .ok into) (hi : g.layout into = .ok input)
    (ho : g.layout id = .ok output) :
    ∃ rest, Infer.Yields (g.pattern? values n) n.op (input.bare :: rest) output.bare := by
  obtain ⟨ins, l, hins, hl, hy⟩ := k.inferred hn
  obtain rfl := Except.ok.inj (ho.symm.trans hl)
  have h0 := (input_eq_ok hn).1 hin
  generalize n.inputs = ids at h0 hins
  obtain _ | ⟨ha, -⟩ := hins
  · cases h0
  obtain rfl := Option.some.inj h0
  obtain rfl := Except.ok.inj (hi.symm.trans ha)
  exact ⟨_, hy⟩

/-- An optimized node that does not concatenate is a view of its first input. -/
theorem viewReason {n : Node} {into : NodeId} {input output : Layout} (hn : g.node? id = some n)
    (hop : ∀ axis, n.op ≠ .concatenation axis) (hx : g.IsOptimized id)
    (hin : g.input id 0 = .ok into) (hi : g.layout into = .ok input)
    (ho : g.layout id = .ok output) : ∃ p, ViewReason id input output p n.op := by
  obtain ⟨_, _, hst⟩ := hx
  obtain ⟨p, hstands⟩ := k.stands hst
  cases hstands with
  | @inPlace m axis _ _ hm hc _ =>
    obtain rfl := Option.some.inj (hn.symm.trans hm)
    exact absurd hc.op (hop axis)
  | view hm hv _ =>
    obtain rfl := Option.some.inj (hn.symm.trans hm)
    obtain rfl := k.sound.id_eq hn
    obtain rfl := Except.ok.inj (hin.symm.trans hv.reads)
    obtain rfl := Except.ok.inj (hi.symm.trans hv.input_layout)
    obtain rfl := Except.ok.inj (ho.symm.trans hv.output_layout)
    exact ⟨p, hv.reason⟩

/-- A slice is placed by the concatenation that it is a part of. -/
theorem inPlace {owner : NodeId} (h : g.SliceOf x owner) : ∃ n axis output extents,
    g.node? owner = some n ∧ g.InPlace n axis output extents := by
  obtain ⟨⟨offset, hst⟩, -, -⟩ := h
  obtain ⟨p, hstands⟩ := k.stands hst
  cases hstands with
  | @view n into input output hn hv _ =>
    exact absurd rfl (k.linked.view_of_proposal k.sound hst hn hv).2.1
  | @inPlace n axis output extents hn hc _ => exact ⟨n, axis, output, extents, hn, hc⟩

/-- The padding of a window lies around what it shows of its input. -/
theorem window (h : g.Windowed id) : ∃ n offsets sizes into input output axes,
    g.node? id = some n ∧ n.op = .crop offsets sizes ∧ g.input id 0 = .ok into ∧
      g.layout into = .ok input ∧ g.layout id = .ok output ∧
      windowPadding input.shape.dims input.padding.axes offsets sizes = .ok axes ∧
      output.padding = ⟨axes⟩ ∧ offsets.length = input.rank ∧ sizes.length = input.rank ∧
      input.element = output.element ∧ input.format = output.format := by
  obtain ⟨⟨into, offset, hst⟩, n, offsets, sizes, hn, hop⟩ := h
  obtain ⟨p, hstands⟩ := k.stands hst
  cases hstands with
  | @view m into' input output hm hv hinst =>
    obtain rfl := Option.some.inj (hn.symm.trans hm)
    obtain rfl := k.sound.id_eq hn
    have hr := hv.reason
    rw [hop] at hr
    obtain - | - | - | ⟨helem, hfmt, -, hwin, -, -, hlay, -⟩ := hr
    next axes =>
    have hpad : output.padding = ⟨axes⟩ := by
      rw [← hinst _ _ (by rw [hlay]; exact List.mem_singleton_self _)]
      rfl
    obtain ⟨rest, hy⟩ := k.yields hn hv.reads hv.input_layout hv.output_layout
    rw [hop] at hy
    obtain ⟨ho, hsz, -⟩ := hy.crop_lengths
    exact ⟨n, offsets, sizes, into', input, output, axes, hn, hop, hv.reads, hv.input_layout,
      hv.output_layout, hwin, hpad, ho, hsz, helem, hfmt⟩
  | @inPlace m axis output extents hm hc _ =>
    obtain rfl := Option.some.inj (hn.symm.trans hm)
    cases hop.symm.trans hc.op

/-- All padding is known. -/
theorem settled {l : Layout} (hl : g.layout id = .ok l) : l.padding.hasDynamic = false := by
  rcases k.unpadded hl with hz | hw | ⟨owner, hslice⟩
  · rw [hz]
    exact Padding.hasDynamic_zero _
  · obtain ⟨n, offsets, sizes, into, input, output, axes, -, -, -, hin, hout, hwin, hpad, ho, hsz, -⟩ :=
      k.window hw
    obtain rfl := Except.ok.inj (hl.symm.trans hout)
    have haxes := (Layout.isValid_iff.1 (k.valid hin)).2
    rw [hpad]
    refine (hasDynamic_windowPadding haxes ho hsz hwin).2 ?_
    exact Shape.isStatic_iff_unknown.1 (k.static hin)
  · obtain ⟨n, axis, output, extents, hn, hc⟩ := k.inPlace hslice
    obtain ⟨m, hm, hmem⟩ := hslice.2.1
    obtain rfl := Option.some.inj (hn.symm.trans hm)
    obtain ⟨i, hi⟩ := List.mem_iff_getElem?.1 hmem
    obtain ⟨l', extent, hl', -, -, -, -, hpad, -⟩ := hc.slice hi
    obtain rfl := Except.ok.inj (hl.symm.trans hl')
    obtain ⟨sizes, rfl, -⟩ := exists_extents hc.dims fun a _ la hla => k.static hla
    rw [hpad, ← List.map_take, ← List.map_drop, Dim.slicePadding_known]
    exact Padding.hasDynamic_set_fixed ..

end Ready

/-- A recheck only pads what an execution has resolved. -/
theorem Rechecked.layout_resolved (k : Rechecked r g done) (hr : f.Resolved tensors values r)
    {l : Layout} (hl : g.layout x = .ok l) : r.layout x = .ok l.bare ∧ l.isStatic = true ∧
      l.isAllocatable = true := by
  obtain ⟨n, hn, -⟩ := layout_eq_ok.1 hl
  obtain ⟨_, _, lr, _, _, hlr, -⟩ := hr.inferred x (by
    rw [← k.rechecking.wiring.contains_eq]
    exact contains_iff.2 ⟨n, hn⟩)
  obtain ⟨p, hg, hv⟩ := k.padded.layout hlr
  obtain rfl := Except.ok.inj (hl.symm.trans hg)
  have hstatic := hr.static hlr
  refine ⟨?_, hstatic, hv⟩
  rw [Layout.bare_of_unpadded (hr.inferred.layout hlr).1 p]
  exact hlr

/-- A recheck of a compiled graph whose shapes have been resolved. -/
theorem Compiled.rechecked (c : Compiled b f) (hr : f.Resolved tensors values r)
    {report : RecheckReport} (h : r.recheck .standard = (g, .ok report)) :
    ∃ done, (∀ x, r.contains x = true → x ∈ done) ∧ Rechecked r g done :=
  rechecked_recheck (hr.relaid.wiring.sound c.sound')
    (c.linked.congr hr.relaid.wiring hr.relaid.state hr.relaid.sharing) hr.inferred.layout h

/-- What an execution runs on. -/
theorem Compiled.ready (c : Compiled b f) (hr : f.Resolved tensors values r)
    {report : RecheckReport} (h : r.recheck .standard = (g, .ok report)) : Ready g values := by
  have hs : r.Sound := hr.relaid.wiring.sound c.sound'
  obtain ⟨done, hdone, k⟩ := c.rechecked hr h
  have w := k.rechecking.wiring
  have hlayout : ∀ {x l}, g.layout x = .ok l → r.layout x = .ok l.bare ∧
      l.isStatic = true ∧ l.isAllocatable = true := fun hl => k.layout_resolved hr hl
  refine ⟨k.sound hs, k.rechecking.linked, ?_, fun hl => (hlayout hl).2.1, fun hl => (hlayout hl).2.2,
    ?_, ?_⟩
  · intro id n hn
    have hop := op_recheckAlong .standard r.order r id
    have hg : (Recheck.along .standard r.order r).1 = g := congrArg Prod.fst h
    obtain ⟨m, ins, lr, hm, hins, hlr, hy, -⟩ := hr.inferred id (by
      rw [← w.contains_eq]
      exact contains_iff.2 ⟨n, hn⟩)
    rw [hg, hn, hm, Option.map_some, Option.map_some] at hop
    have hop := Option.some.inj hop
    obtain ⟨m', hm', -, -, hin, -⟩ := w.node hn
    obtain rfl := Option.some.inj (hm.symm.trans hm')
    have hpattern : g.pattern? values n = r.pattern? values m := by
      rw [w.symm.pattern?_eq, pattern?, pattern?, hin]
    have hfeeds : ∀ a ∈ n.inputs, g.contains a = true := fun a ha =>
      (k.sound hs).live ⟨n, hn, ha⟩
    obtain ⟨ins', hins'⟩ : ∃ ls, g.Lays n.inputs ls := exists_lays fun a ha => by
      obtain ⟨_, _, la, _, _, hla, -⟩ := hr.inferred a (by
        rw [← w.contains_eq]
        exact hfeeds a ha)
      obtain ⟨p, hp, -⟩ := k.padded.layout hla
      exact ⟨_, hp⟩
    have hbare : r.Lays m.inputs (ins'.map Layout.bare) := by
      rw [Lays, List.forall₂_map_right_iff, hin]
      exact hins'.imp fun a l hl => (hlayout hl).1
    obtain rfl := hins.unique hbare
    obtain ⟨p, hg', -⟩ := k.padded.layout hlr
    have hsame := Except.ok.inj (hlr.symm.trans (hlayout hg').1)
    refine ⟨ins', _, hins', hg', ?_⟩
    rw [hpattern, hop, ← hsame]
    exact hy
  · intro id into offset hst
    have hid : r.contains id = true := by
      rw [← w.contains_eq, contains_iff]
      obtain ⟨n, hn, -⟩ := Option.map_eq_some_iff.1 hst
      exact ⟨n, hn⟩
    exact k.stands (hdone id hid) hst
  · intro id l hl
    rcases k.padded.unpadded hl with hz | ⟨-, hw⟩ | ⟨o, -, ho⟩
    · exact .inl hz
    · exact .inr (.inl hw)
    · exact .inr (.inr ⟨o, ho⟩)

end BufferFusion
