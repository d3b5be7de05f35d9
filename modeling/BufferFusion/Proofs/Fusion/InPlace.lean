import BufferFusion.Fusion.Rules
import BufferFusion.Proofs.Graph.Wiring
import BufferFusion.Proofs.Layout.Dims

/-!
# What in-place concatenations propose

One slice for each input, in the order of the slots: it begins where the slices before it end, and
what lies before and after it is padding on the producer's layout.
-/
namespace BufferFusion.Fuse

variable {g : Graph} {n : Node} {p : Proposal}

/-- A producer that can write its output, of layout `l`, straight into a slice of `owner`. -/
structure SliceWriter (g : Graph) (owner : NodeId) (output : Layout) (id : NodeId) (l : Layout) :
    Prop where
  writer : ∃ m, g.node? id = some m ∧ m.state.isOptimized = false ∧ writesSlices m.op = true
  here : ∀ e, g.sharing.edgeOf? id = some e → e.owner = owner
  alone : g.consumers id = [owner]
  inner : g.isOutput id = false
  layout : g.layout id = .ok l
  element : l.element = output.element
  format : l.format = output.format
  unpadded : l.padding.isZero = true

/-- A producer's layout as a slice that `before` precedes and `after` follows. -/
def sliceLayout (axis : Nat) (l : Layout) (before after : Dim) : Layout :=
  l.withPadding ((Padding.zero l.rank).set axis (slicePadding before after))

theorem sliceProducer_eq_inr {output l : Layout} {id : NodeId} :
    sliceProducer ⟨g, n⟩ output id = .ok (.inr l) ↔ SliceWriter g n.id output id l := by
  simp only [sliceProducer, Result.bind_eq_ok, Graph.get_eq_ok]
  constructor
  · rintro ⟨m, hm, h⟩
    split at h
    · cases h
    next hbusy =>
    split at h
    · cases h
    next hwrites =>
    split at h
    · cases h
    next hshared =>
    obtain ⟨l', hl, h⟩ := Result.bind_eq_ok.1 h
    split at h
    · cases h
    next hmatch =>
    split at h
    · cases h
    next hpad =>
    obtain rfl := Sum.inr.inj (Except.ok.inj h)
    simp only [Bool.or_eq_true, not_or, Bool.not_eq_true, Option.any_eq_false, bne_eq_false_iff_eq]
      at hbusy
    simp only [not_or, not_not, Bool.not_eq_true] at hshared hmatch
    exact ⟨⟨m, hm, hbusy.1, by simpa using hwrites⟩, hbusy.2, hshared.1, hshared.2, hl, hmatch.1,
      hmatch.2, by simpa using hpad⟩
  · intro h
    obtain ⟨m, hm, hopt, hwrites⟩ := h.writer
    refine ⟨m, hm, ?_⟩
    have hany : (g.sharing.edgeOf? id).any (·.owner != n.id) = false := by
      simpa [Option.any_eq_false] using h.here
    simp [hopt, hany, hwrites, h.alone, h.inner, h.layout, h.element, h.format, h.unpadded, bind,
      Except.bind, pure, Except.pure]

theorem sliceProducers_eq_inr {output : Layout} {ids : List NodeId}
    {ps : List (NodeId × Layout)} : sliceProducers ⟨g, n⟩ output ids = .ok (.inr ps) ↔
      ps.map (·.1) = ids ∧ ∀ q ∈ ps, SliceWriter g n.id output q.1 q.2 := by
  induction ids generalizing ps with
  | nil =>
    simp only [sliceProducers, Except.ok.injEq, Sum.inr.injEq, List.map_eq_nil_iff]
    constructor
    · rintro rfl
      simp
    · exact fun h => h.1.symm
  | cons id ids ih =>
    simp only [sliceProducers, Result.bind_eq_ok]
    constructor
    · rintro ⟨r, hr, h⟩
      split at h
      · cases h
      next l =>
      obtain ⟨rs, hrs, h⟩ := Result.bind_eq_ok.1 h
      split at h
      · cases h
      next rest =>
      obtain rfl := Sum.inr.inj (Except.ok.inj h)
      obtain ⟨hids, hall⟩ := ih.1 hrs
      refine ⟨by simp [hids], ?_⟩
      intro q hq
      rcases List.mem_cons.1 hq with rfl | hq
      · exact sliceProducer_eq_inr.1 hr
      · exact hall q hq
    · rintro ⟨hids, hall⟩
      obtain _ | ⟨⟨x, l⟩, rest⟩ := ps
      · cases hids
      rw [List.map_cons] at hids
      obtain ⟨rfl, hrest⟩ := List.cons.inj hids
      refine ⟨.inr l, sliceProducer_eq_inr.2 (hall _ List.mem_cons_self), ?_⟩
      rw [ih.2 ⟨hrest, fun q hq => hall q (List.mem_cons_of_mem _ hq)⟩]
      rfl

/-- After each slice comes the sum of the extents that follow it. -/
theorem extentsAfter_eq_ok {es after : List Dim} (h : extentsAfter es = .ok after) :
    after = (List.range es.length).map fun i => Dim.total (es.drop (i + 1)) := by
  induction es using extentsAfter.induct generalizing after with
  | case1 => simpa [extentsAfter] using h.symm
  | case2 d => simpa [extentsAfter] using h.symm
  | case3 d next rest ih =>
    simp only [extentsAfter, Result.bind_eq_ok] at h
    obtain ⟨later, hlater, head, hhead, h⟩ := h
    obtain rfl := Except.ok.inj h
    obtain rfl := ih hlater
    have hfirst : head = Dim.total (next :: rest) := by
      rw [Dim.add_eq_ok hhead, List.length_cons, List.range_succ_eq_map]
      simp [Dim.plus_comm]
    rw [hfirst, List.length_cons (a := d), List.range_succ_eq_map]
    simp

theorem extentsAfter_onlyOverflow (es : List Dim) : (extentsAfter es).OnlyOverflow := by
  induction es using extentsAfter.induct with
  | case1 | case2 => exact Result.onlyOverflow_ok _
  | case3 d next rest ih =>
    refine ih.bind fun later _ => (Dim.add_onlyOverflow _ _).bind fun _ _ => ?_
    exact Result.onlyOverflow_pure _

variable {owner axis index : Nat} {before : Dim} {slices : List Slice}

/-- The slices that are placed: each begins at the sum of the extents before it, and can be laid
out there. -/
theorem placeSlices_eq_some {edges : List SharingEdge} {layouts : List (NodeId × Layout)}
    (h : placeSlices owner axis index before slices = .ok (some (edges, layouts))) :
    edges.length = slices.length ∧ layouts.length = slices.length ∧
      ∀ i s, slices[i]? = some s → ∃ b, ((slices.map (·.extent)).take i).foldlM Dim.add before =
        .ok b ∧ edges[i]? = some ⟨owner, s.producer, .slice (index + i) axis b s.extent⟩ ∧
          layouts[i]? = some (s.producer, sliceLayout axis s.layout b s.after) ∧
          (sliceLayout axis s.layout b s.after).isAllocatable = true := by
  induction slices generalizing index before edges layouts with
  | nil =>
    simp only [placeSlices, Except.ok.injEq, Option.some.injEq, Prod.mk.injEq] at h
    obtain ⟨rfl, rfl⟩ := h
    simp
  | cons s slices ih =>
    simp only [placeSlices, Result.bind_eq_ok] at h
    obtain ⟨padding, hpad, h⟩ := h
    simp only [Padding.place] at hpad
    split at hpad
    swap
    · cases hpad
    obtain rfl := Except.ok.inj hpad
    split at h
    · cases h
    next halloc =>
    obtain ⟨next, hnext, h⟩ := Result.bind_eq_ok.1 h
    obtain ⟨r, hr, h⟩ := Result.bind_eq_ok.1 h
    cases r with
    | none => cases h
    | some r =>
      obtain ⟨edges', layouts'⟩ := r
      simp only [pure, Except.pure, Except.ok.injEq, Option.some.injEq, Prod.mk.injEq] at h
      obtain ⟨rfl, rfl⟩ := h
      obtain ⟨h₁, h₂, hall⟩ := ih hr
      refine ⟨by simp [h₁], by simp [h₂], ?_⟩
      intro i s' hs
      cases i with
      | zero =>
        obtain rfl := Option.some.inj hs
        exact ⟨before, rfl, rfl, rfl, by simpa [sliceLayout] using halloc⟩
      | succ i =>
        obtain ⟨b, hb, hedge, hlayout, ha⟩ := hall i s' hs
        refine ⟨b, ?_, ?_, hlayout, ha⟩
        · simpa [List.foldlM_cons, hnext, bind, Except.bind] using hb
        · simpa [Nat.add_assoc, Nat.add_comm 1 i] using hedge

/-- Slices that are not placed: one of them cannot be laid out. -/
theorem exists_of_placeSlices_none (h : placeSlices owner axis index before slices = .ok none) :
    ∃ i s b, slices[i]? = some s ∧
      ((slices.map (·.extent)).take i).foldlM Dim.add before = .ok b ∧
        (sliceLayout axis s.layout b s.after).isAllocatable = false := by
  induction slices generalizing index before with
  | nil => cases h
  | cons s slices ih =>
    simp only [placeSlices, Result.bind_eq_ok] at h
    obtain ⟨padding, hpad, h⟩ := h
    simp only [Padding.place] at hpad
    split at hpad
    swap
    · cases hpad
    obtain rfl := Except.ok.inj hpad
    split at h
    · next halloc => exact ⟨0, s, before, rfl, rfl, halloc⟩
    obtain ⟨next, hnext, h⟩ := Result.bind_eq_ok.1 h
    obtain ⟨r, hr, h⟩ := Result.bind_eq_ok.1 h
    cases r with
    | some r => cases h
    | none =>
      obtain ⟨i, s', b, hs, hb, ha⟩ := ih hr
      refine ⟨i + 1, s', b, hs, ?_, ha⟩
      simpa [List.foldlM_cons, hnext, bind, Except.bind] using hb

theorem placeSlices_onlyOverflow (hrank : ∀ s ∈ slices, axis < s.layout.rank) :
    (placeSlices owner axis index before slices).OnlyOverflow := by
  induction slices generalizing index before with
  | nil => exact Result.onlyOverflow_ok _
  | cons s slices ih =>
    have haxis : axis < (Padding.zero s.layout.rank).rank := by
      simpa using hrank s List.mem_cons_self
    simp only [placeSlices, Padding.place, if_pos haxis]
    refine (Result.onlyOverflow_ok _).bind fun _ _ => ?_
    split
    · exact Result.onlyOverflow_pure _
    refine (Dim.add_onlyOverflow _ _).bind fun _ _ => ?_
    refine (ih fun s' hs' => hrank s' (List.mem_cons_of_mem _ hs')).bind fun r _ => ?_
    split <;> exact Result.onlyOverflow_pure _

/-- A proposal to have the inputs of a concatenation write their slices of its output. -/
structure InPlaceProposal (g : Graph) (n : Node) (p : Proposal) (axis : Nat) (output : Layout)
    (extents : List Dim) : Prop where
  op : n.op = .concatenation axis
  output_layout : g.layout n.id = .ok output
  into : p.into = n.id
  offset : p.offset = 0
  length_extents : extents.length = n.inputs.length
  length_edges : p.edges.length = n.inputs.length
  length_layouts : p.layouts.length = n.inputs.length
  slice : ∀ {i m}, n.inputs[i]? = some m → ∃ l extent before,
    SliceWriter g n.id output m l ∧ l.shape.dims[axis]? = some extent ∧
      extents[i]? = some extent ∧ (extents.take i).foldlM Dim.add (.known 0) = .ok before ∧
      p.edges[i]? = some ⟨n.id, m, .slice i axis before extent⟩ ∧
      p.layouts[i]? =
        some (m, sliceLayout axis l before (Dim.total (extents.drop (i + 1)))) ∧
      (sliceLayout axis l before (Dim.total (extents.drop (i + 1)))).isAllocatable = true
  assumption : p.assumption =
    if p.layouts.any (·.2.padding.hasDynamic) then some (.sliceLayout axis) else none

/-- The slices that the rule lays out. -/
def slicesFrom (producers : List (NodeId × Layout)) (extents after : List Dim) : List Slice :=
  List.zipWith (fun (id, l) (extent, after) => (⟨id, l, extent, after⟩ : Slice)) producers
    (extents.zip after)

variable {producers : List (NodeId × Layout)} {extents after : List Dim}

theorem getElem?_slicesFrom (h : after = (List.range extents.length).map fun i =>
      Dim.total (extents.drop (i + 1))) {i : Nat} {s : Slice} :
    (slicesFrom producers extents after)[i]? = some s ↔ producers[i]? = some (s.producer, s.layout) ∧
      extents[i]? = some s.extent ∧ s.after = Dim.total (extents.drop (i + 1)) := by
  obtain ⟨id, l, e, a⟩ := s
  simp only [slicesFrom, List.getElem?_zipWith_eq_some, List.getElem?_zip_eq_some]
  constructor
  · rintro ⟨⟨id', l'⟩, ⟨e', a'⟩, hp, ⟨he, ha⟩, hs⟩
    obtain ⟨rfl, rfl, rfl, rfl⟩ := Slice.mk.inj hs
    refine ⟨hp, he, ?_⟩
    rw [h, List.getElem?_map] at ha
    obtain ⟨j, hj, rfl⟩ := Option.map_eq_some_iff.1 ha
    rw [(List.getElem?_eq_some_iff.1 hj).2.symm, List.getElem_range]
  · rintro ⟨hp, he, rfl⟩
    refine ⟨(id, l), (e, Dim.total (extents.drop (i + 1))), hp, ⟨he, ?_⟩, rfl⟩
    have hi := (List.getElem?_eq_some_iff.1 he).1
    simp [h, hi]

theorem length_slicesFrom (hp : producers.length = extents.length)
    (ha : after.length = extents.length) :
    (slicesFrom producers extents after).length = extents.length := by
  simp [slicesFrom, hp, ha]

theorem map_extent_slicesFrom (hp : producers.length = extents.length)
    (ha : after.length = extents.length) :
    (slicesFrom producers extents after).map (·.extent) = extents := by
  refine List.ext_getElem (by simp [length_slicesFrom hp ha]) fun i _ _ => ?_
  simp [slicesFrom]

/-- What the rule has found out before it lays out the slices. -/
theorem concatenation_eq_ok {axis : Nat} (hop : n.op = .concatenation axis) {d : Decision}
    (h : concatenation ⟨g, n⟩ = .ok d) : ∃ output, g.layout n.id = .ok output ∧
      ((∃ reason, sliceProducers ⟨g, n⟩ output n.inputs = .ok (.inl reason) ∧
        d = .rejected reason) ∨
      ∃ producers extents after r, sliceProducers ⟨g, n⟩ output n.inputs = .ok (.inr producers) ∧
        List.Forall₂ (fun q d => q.2.shape.dims[axis]? = some d) producers extents ∧
        extentsAfter extents = .ok after ∧
        placeSlices n.id axis 0 (.known 0) (slicesFrom producers extents after) = .ok r ∧
        d = match r with
          | none => .rejected .invalidLayout
          | some (edges, layouts) => .eligible
            { into := n.id, offset := 0, edges, layouts
              assumption :=
                if layouts.any (·.2.padding.hasDynamic) then some (.sliceLayout axis) else none }) := by
  simp only [concatenation, hop] at h
  obtain ⟨output, hout, h⟩ := Result.bind_eq_ok.1 h
  refine ⟨output, hout, ?_⟩
  obtain ⟨found, hfound, h⟩ := Result.bind_eq_ok.1 h
  cases found with
  | inl reason => exact .inl ⟨reason, hfound, (Except.ok.inj h).symm⟩
  | inr producers =>
    obtain ⟨extents, hextents, h⟩ := Result.bind_eq_ok.1 h
    obtain ⟨after, hafter, h⟩ := Result.bind_eq_ok.1 h
    obtain ⟨r, hr, h⟩ := Result.bind_eq_ok.1 h
    refine .inr ⟨producers, extents, after, r, hfound, ?_, hafter, hr, ?_⟩
    · exact (Result.mapM_eq_ok.1 hextents).imp fun _ _ he => Result.entry_eq_ok.1 he
    · cases r <;> exact (Except.ok.inj h).symm

/-- An accepted concatenation has a slice for each of its inputs. -/
theorem concatenation_eligible {axis : Nat} (hop : n.op = .concatenation axis)
    (h : concatenation ⟨g, n⟩ = .ok (.eligible p)) :
    ∃ output extents, InPlaceProposal g n p axis output extents := by
  obtain ⟨output, hout, ⟨reason, -, hd⟩ | ⟨producers, extents, after, r, hps, hex, haft, hr, hd⟩⟩ :=
    concatenation_eq_ok hop h
  · cases hd
  obtain _ | ⟨edges, layouts⟩ := r
  · cases hd
  obtain rfl := Decision.eligible.inj hd
  have hafter := extentsAfter_eq_ok haft
  have hlen : after.length = extents.length := by simp [hafter]
  obtain ⟨hids, hwriters⟩ := sliceProducers_eq_inr.1 hps
  obtain ⟨h₁, h₂, hslices⟩ := placeSlices_eq_some hr
  rw [length_slicesFrom hex.length_eq hlen] at h₁ h₂
  rw [map_extent_slicesFrom hex.length_eq hlen] at hslices
  have hinputs : extents.length = n.inputs.length := by simp [← hids, hex.length_eq]
  refine ⟨output, extents, hop, hout, rfl, rfl, hinputs, h₁.trans hinputs, h₂.trans hinputs, ?_,
    rfl⟩
  intro i m hm
  rw [← hids, List.getElem?_map] at hm
  obtain ⟨⟨id, l⟩, hq, rfl⟩ := Option.map_eq_some_iff.1 hm
  obtain ⟨hi, hq'⟩ := List.getElem?_eq_some_iff.1 hq
  have hi' : i < extents.length := hex.length_eq ▸ hi
  have hdim := hex.get hi hi'
  have hext : extents[i]? = some extents[i] := List.getElem?_eq_getElem hi'
  obtain ⟨b, hb, hedge, hlayout, halloc⟩ := hslices i
    ⟨id, l, extents[i], Dim.total (extents.drop (i + 1))⟩
    ((getElem?_slicesFrom hafter).2 ⟨hq, hext, rfl⟩)
  refine ⟨l, extents[i], b, hwriters _ (List.mem_of_getElem? hq), ?_, hext, hb, ?_, hlayout, halloc⟩
  · simpa [hq'] using hdim
  · simpa using hedge

end BufferFusion.Fuse
