import BufferFusion.Proofs.Execution.Demotion

/-!
# Rules always answer

A rule that is asked in the middle of fusion answers unless a size overflows, whatever is known of
the shapes: inference has checked ranks and axes, and padding is only found where it can be laid
out.
-/
namespace BufferFusion

open Graph

namespace Fuse

variable {g : Graph} {n : Node} {into : NodeId} {input output : Layout}

theorem view_onlyOverflow {compared : Compatibility} {a : Assumption}
    (hin : g.input n.id 0 = .ok into) : (view ⟨g, n⟩ compared a).OnlyOverflow := by
  simp only [view, FusionContext.producer, hin]
  split <;> exact Result.onlyOverflow_ok _

theorem orderObstacle_onlyOverflow {dims : List Dim} {order : List Nat} {previous : Option Nat}
    {unknown : Bool} (h : ∀ axis ∈ order, axis < dims.length) :
    (orderObstacle? dims previous unknown order).OnlyOverflow := by
  induction order generalizing previous unknown with
  | nil => exact Result.onlyOverflow_ok _
  | cons axis order ih =>
    have hrest : ∀ axis ∈ order, axis < dims.length := fun a ha => h a (List.mem_cons_of_mem _ ha)
    have hd : (dims[axis]?).isSome = true := by simpa using h axis List.mem_cons_self
    refine (Result.onlyOverflow_entry hd).bind fun d _ => ?_
    split
    · exact ih hrest
    · split
      · exact Result.onlyOverflow_pure _
      · exact ih hrest

section Views

variable (hin : g.input n.id 0 = .ok into) (hi : g.layout into = .ok input)
  (ho : g.layout n.id = .ok output)

include hin hi ho

theorem reshape_onlyOverflow {target : ReshapeTarget} {copyZeros : Bool}
    (hop : n.op = .reshape target copyZeros) : (reshape ⟨g, n⟩).OnlyOverflow := by
  simp only [reshape, hop, FusionContext.input, FusionContext.output,
    inputLayout_eq_ok.2 ⟨into, hin, hi⟩, ho, bind, Except.bind]
  split
  · exact Result.onlyOverflow_ok _
  · exact (compareFlat_onlyOverflow _ _).bind fun _ _ => view_onlyOverflow hin

theorem permute_onlyOverflow {order : List Nat} (hop : n.op = .permute order)
    (horder : ∀ axis ∈ order, axis < input.rank) : (permute ⟨g, n⟩).OnlyOverflow := by
  simp only [permute, hop, FusionContext.input, FusionContext.output,
    inputLayout_eq_ok.2 ⟨into, hin, hi⟩, ho, bind, Except.bind]
  split
  · exact Result.onlyOverflow_ok _
  refine Result.OnlyOverflow.bind (orderObstacle_onlyOverflow horder) fun obstacle _ => ?_
  split
  · exact Result.onlyOverflow_ok _
  · exact (compareFlat_onlyOverflow _ _).bind fun _ _ => view_onlyOverflow hin

theorem reorder_onlyOverflow {format : Format} {element : ElementType}
    (hop : n.op = .reorder format element) : (reorder ⟨g, n⟩).OnlyOverflow := by
  simp only [reorder, hop, FusionContext.input, FusionContext.output,
    inputLayout_eq_ok.2 ⟨into, hin, hi⟩, ho, bind, Except.bind]
  split
  · exact Result.onlyOverflow_ok _
  · exact view_onlyOverflow hin

theorem crop_onlyOverflow {offsets sizes : List Nat} (hop : n.op = .crop offsets sizes)
    (halloc : input.isAllocatable = true) (hoff : offsets.length = input.rank)
    (hsz : sizes.length = input.rank) : (crop ⟨g, n⟩).OnlyOverflow := by
  have haxes : input.padding.axes.length = input.shape.dims.length :=
    (Layout.isValid_iff.1 (Bool.and_eq_true_iff.1 halloc).1).2
  simp only [crop, hop, FusionContext.input, FusionContext.output,
    inputLayout_eq_ok.2 ⟨into, hin, hi⟩, ho, bind, Except.bind]
  split
  · exact Result.onlyOverflow_ok _
  split
  · exact Result.onlyOverflow_ok _
  next hdyn =>
  refine Result.OnlyOverflow.bind (windowPadding_onlyOverflow haxes hoff hsz) fun axes _ => ?_
  split
  · exact Result.onlyOverflow_ok _
  simp only [FusionContext.producer, hin]
  split
  · exact Result.onlyOverflow_ok _
  next hs =>
  have hoffset := windowOffset_onlyOverflow (by simpa using hs) (by simpa using hdyn) halloc hoff
  exact Result.OnlyOverflow.bind hoffset fun offset _ => Result.onlyOverflow_ok _

end Views

theorem sliceProducers_onlyOverflow {ids : List NodeId} (hids : ∀ a ∈ ids, ∃ l, g.layout a = .ok l) :
    (sliceProducers ⟨g, n⟩ output ids).OnlyOverflow := by
  induction ids with
  | nil => exact Result.onlyOverflow_ok _
  | cons a ids ih =>
    obtain ⟨l, hl⟩ := hids a List.mem_cons_self
    obtain ⟨m, hm, -⟩ := layout_eq_ok.1 hl
    refine Result.OnlyOverflow.bind ?_ fun r _ => ?_
    · simp only [sliceProducer, get_eq_ok.2 hm, hl, bind, Except.bind]
      repeat' split
      all_goals exact Result.onlyOverflow_ok _
    · split
      · exact Result.onlyOverflow_ok _
      refine (ih fun b hb => hids b (List.mem_cons_of_mem _ hb)).bind fun r _ => ?_
      split <;> exact Result.onlyOverflow_ok _

theorem concatenation_onlyOverflow {axis : Nat} (hop : n.op = .concatenation axis)
    (ho : g.layout n.id = .ok output)
    (hins : ∀ a ∈ n.inputs, ∃ l, g.layout a = .ok l ∧ axis < l.rank) :
    (concatenation ⟨g, n⟩).OnlyOverflow := by
  simp only [concatenation, hop, FusionContext.output, ho]
  refine Result.OnlyOverflow.bind (Result.onlyOverflow_ok _) fun output _ => ?_
  refine Result.OnlyOverflow.bind (sliceProducers_onlyOverflow fun a ha =>
    (hins a ha).imp fun _ h => h.1) fun found hfound => ?_
  split
  · exact Result.onlyOverflow_ok _
  next producers =>
  obtain ⟨hids, hwriters⟩ := sliceProducers_eq_inr.1 hfound
  have hrank : ∀ q ∈ producers, axis < q.2.rank := by
    intro q hq
    obtain ⟨l, hl, hax⟩ := hins q.1 (hids ▸ List.mem_map_of_mem hq)
    obtain rfl := Except.ok.inj (hl.symm.trans (hwriters q hq).layout)
    exact hax
  refine Result.OnlyOverflow.bind (Result.mapM_onlyOverflow fun q hq =>
    Result.onlyOverflow_entry ?_) fun extents _ => ?_
  · rw [Option.isSome_iff_exists]
    exact ⟨_, List.getElem?_eq_getElem (hrank q hq)⟩
  refine (extentsAfter_onlyOverflow extents).bind fun after _ => ?_
  refine Result.OnlyOverflow.bind (placeSlices_onlyOverflow fun s hs => ?_) fun placed _ => ?_
  · obtain ⟨i, hi, rfl⟩ := List.mem_iff_getElem.1 hs
    simp only [List.getElem_zipWith]
    exact hrank _ (List.getElem_mem _)
  · cases placed <;> exact Result.onlyOverflow_ok _

end Fuse

variable {b g : Graph} {id : NodeId} {done : List NodeId}

/-- The layouts of a node and its inputs in a graph where fusion has put padding on some. -/
theorem Graph.Padded.layouts (k : b.Padded g done) {ids : List NodeId} {ins : List Layout}
    (hins : b.Lays ids ins) : List.Forall₂ (fun a l₀ => ∃ l, g.layout a = .ok l ∧
      l.isAllocatable = true ∧ l.shape = l₀.shape) ids ins :=
  hins.imp fun _ _ hl =>
    let ⟨_, hp, halloc⟩ := k.layout hl
    ⟨_, hp, halloc, rfl⟩

/-- Where a rule is asked about a node of a graph that was inferred, it answers. -/
theorem Graph.Padded.judge_onlyOverflow (k : b.Padded g done) (hs : b.Sound)
    (hl : b.Yielded) (w : g.SameWiring b) (hid : g.contains id = true) :
    (FusionRules.standard.judge g id).OnlyOverflow := by
  obtain ⟨n, hn⟩ := contains_iff.1 hid
  obtain rfl := (w.symm.sound hs).id_eq hn
  obtain ⟨m, hm, hmid, -, hin, hop⟩ := w.node hn
  obtain ⟨m', ins, out, p, hm', hins, hout, hy, -⟩ := hl n.id (contains_iff.2 ⟨m, hm⟩)
  obtain rfl := Option.some.inj (hm.symm.trans hm')
  obtain ⟨padding, hout, -⟩ := k.layout hout
  have hlays := k.layouts hins
  have hfirst : ∀ {a rest}, ins = a :: rest → ∃ into l, g.input n.id 0 = .ok into ∧
      g.layout into = .ok l ∧ l.isAllocatable = true ∧ l.shape = a.shape := by
    rintro a rest rfl
    rw [hin] at hlays
    generalize hids : n.inputs = ids at hlays
    obtain _ | ⟨⟨l, hl, halloc, hshape⟩, -⟩ := hlays
    exact ⟨_, l, (input_eq_ok hn).2 (by rw [hids]; rfl), hl, halloc, hshape⟩
  rw [FusionRules.judge, get_eq_ok.2 hn]
  simp only [bind, Except.bind, Node.tag]
  rcases hop.eq_or_input with he | ⟨_, _, _, h₂⟩
  swap
  · simp only [h₂, Operation.tag, FusionRules.standard]
    exact Result.onlyOverflow_ok _
  cases hopn : n.op with
  | input | constant | fullyConnected => exact Result.onlyOverflow_ok _
  | permute order =>
    rw [he, hopn] at hy
    cases hy with
    | @permute _ a hlen hbij =>
      obtain ⟨into, l, hi, hlay, -, hshape⟩ := hfirst rfl
      refine Fuse.permute_onlyOverflow hi hlay hout hopn fun axis hax => ?_
      simp only [Infer.isPermutation, Bool.and_eq_true, List.all_eq_true, decide_eq_true_eq] at hbij
      have := hbij.1 axis hax
      rwa [hlen, Layout.rank, ← hshape] at this
  | reshape target copyZeros =>
    rw [he, hopn] at hy
    cases hy with
    | reshape =>
      obtain ⟨into, l, hi, hlay, -⟩ := hfirst rfl
      exact Fuse.reshape_onlyOverflow hi hlay hout hopn
  | reorder format element =>
    rw [he, hopn] at hy
    cases hy with
    | reorder =>
      obtain ⟨into, l, hi, hlay, -⟩ := hfirst rfl
      exact Fuse.reorder_onlyOverflow hi hlay hout hopn
  | crop offsets sizes =>
    rw [he, hopn] at hy
    cases hy with
    | crop hoff hsz =>
      obtain ⟨into, l, hi, hlay, halloc, hshape⟩ := hfirst rfl
      rw [Layout.rank, ← hshape] at hoff hsz
      exact Fuse.crop_onlyOverflow hi hlay hout hopn halloc hoff hsz
  | concatenation axis =>
    rw [he, hopn] at hy
    obtain ⟨hax, hall⟩ := hy.concatenation_inputs
    refine Fuse.concatenation_onlyOverflow hopn hout fun a ha => ?_
    rw [hin] at hlays
    obtain ⟨i, hi, rfl⟩ := List.mem_iff_getElem.1 ha
    have hi' : i < ins.length := hlays.length_eq ▸ hi
    obtain ⟨l, hl, -, hshape⟩ := hlays.get hi hi'
    refine ⟨l, hl, ?_⟩
    have hrank : l.rank = out.rank := by
      rw [Layout.rank, hshape]
      exact (hall _ (List.getElem_mem hi')).1
    rwa [hrank]

end BufferFusion
