import BufferFusion.Proofs.Fusion.Agree
import BufferFusion.Proofs.Fusion.Window
import BufferFusion.Proofs.Layout.Counts

/-!
# Rules on concrete shapes

On shapes whose dims are all known a rule answers unless a size overflows. What it can still reject
is a difference in the number of elements, and a slice or a window inside a block.
-/
namespace BufferFusion

namespace Fuse

/-- A rule that answers unless something overflows, and then rejects exactly if `fails`. -/
structure Verdict (d : Result Decision) (fails : Prop) : Prop where
  onlyOverflow : d.OnlyOverflow
  rejected_iff : ∀ {a}, d = .ok a → ((∃ reason, a = .rejected reason) ↔ fails)

namespace Verdict

variable {d : Result Decision} {fails : Prop}

theorem congr {fails' : Prop} (v : Verdict d fails) (h : fails ↔ fails') : Verdict d fails' :=
  ⟨v.onlyOverflow, fun ha => (v.rejected_iff ha).trans h⟩

theorem of_reject {reason : RejectReason} (h : fails) : Verdict (reject reason) fails where
  onlyOverflow := Result.onlyOverflow_ok _
  rejected_iff := by
    rintro a ⟨⟩
    exact iff_of_true ⟨reason, rfl⟩ h

theorem of_eligible {p : Proposal} (h : ¬ fails) : Verdict (.ok (.eligible p)) fails where
  onlyOverflow := Result.onlyOverflow_ok _
  rejected_iff := by
    rintro a ⟨⟩
    exact iff_of_false (by simp) h

theorem bind {α : Type} {x : Result α} {f : α → Result Decision} (hx : x.OnlyOverflow)
    (hf : ∀ a, x = .ok a → Verdict (f a) fails) : Verdict (x >>= f) fails where
  onlyOverflow := hx.bind fun a ha => (hf a ha).onlyOverflow
  rejected_iff := by
    intro a ha
    obtain ⟨y, hy, ha⟩ := Result.bind_eq_ok.1 ha
    exact (hf y hy).rejected_iff ha

/-- A step whose answer is known. -/
theorem bind_ok {α : Type} {x : Result α} {f : α → Result Decision} {a : α} (hx : x = .ok a)
    (hf : Verdict (f a) fails) : Verdict (x >>= f) fails := by
  subst hx
  exact hf

end Verdict

variable {g : Graph} {n : Node} {into : NodeId} {input output : Layout}

theorem view_verdict {compared : Compatibility} {a : Assumption}
    (hin : g.input n.id 0 = .ok into) :
    Verdict (view ⟨g, n⟩ compared a) (compared.isCompatible = false) := by
  simp only [view]
  split
  · next h => exact .of_reject h
  · next h => exact .bind_ok hin (.of_eligible h)

/-- Of known shapes the counts are compared. -/
theorem viewFlat_verdict (hin : g.input n.id 0 = .ok into)
    (hplain : viewObstacle? input output = none) (hs : input.isStatic = true)
    (hs' : output.isStatic = true) (a : Assumption) :
    Verdict (do view ⟨g, n⟩ (← compareFlat input output) a)
      (input.shape.volume ≠ output.shape.volume) := by
  refine .bind (compareFlat_onlyOverflow input output) fun compared hc => ?_
  obtain ⟨c, c', hcount, hcount', rfl⟩ := compareFlat_eq_ok hplain hc
  obtain rfl := Shape.count_of_isStatic hs hcount
  obtain rfl := Shape.count_of_isStatic hs' hcount'
  refine (view_verdict hin).congr ?_
  simp only [Option.elim, Dim.compare]
  split <;> simp_all [Compatibility.isCompatible]

section Views

variable (hin : g.input n.id 0 = .ok into) (hi : g.layout into = .ok input)
  (ho : g.layout n.id = .ok output)

include hin hi ho

theorem reshape_verdict {target : ReshapeTarget} {copyZeros : Bool}
    (hop : n.op = .reshape target copyZeros) (hplain : viewObstacle? input output = none)
    (hs : input.isStatic = true) (hs' : output.isStatic = true) :
    Verdict (reshape ⟨g, n⟩) (input.shape.volume ≠ output.shape.volume) := by
  simp only [reshape, hop]
  refine .bind_ok (inputLayout_eq_ok.2 ⟨into, hin, hi⟩) (.bind_ok ho ?_)
  simp only [hplain]
  exact viewFlat_verdict hin hplain hs hs' _

theorem permute_verdict {order : List Nat} (hop : n.op = .permute order)
    (hplain : viewObstacle? input output = none)
    (hord : orderObstacle? input.shape.dims none false order = .ok none)
    (hs : input.isStatic = true) (hs' : output.isStatic = true) :
    Verdict (permute ⟨g, n⟩) (input.shape.volume ≠ output.shape.volume) := by
  simp only [permute, hop]
  refine .bind_ok (inputLayout_eq_ok.2 ⟨into, hin, hi⟩) (.bind_ok ho ?_)
  simp only [hplain]
  exact .bind_ok hord (viewFlat_verdict hin hplain hs hs' _)

theorem reorder_verdict {format : Format} {element : ElementType}
    (hop : n.op = .reorder format element) (hzero : input.padding.isZero = true)
    (hsame : (input.compare output).isCompatible = true) : Verdict (reorder ⟨g, n⟩) False := by
  simp only [reorder, hop]
  refine .bind_ok (inputLayout_eq_ok.2 ⟨into, hin, hi⟩) (.bind_ok ho ?_)
  simp only [hzero, Bool.true_eq_false, if_false]
  exact (view_verdict hin).congr (by simp [hsame])

/-- A window may not begin inside a block. -/
theorem crop_verdict {offsets sizes : List Nat} (hop : n.op = .crop offsets sizes)
    (helem : input.element = output.element) (hfmt : input.format = output.format)
    (hs : input.isStatic = true) (hd : input.padding.hasDynamic = false)
    (halloc : input.isAllocatable = true) (hv : output.isValid = true)
    (hrank : output.rank = input.rank) (hoff : offsets.length = input.rank)
    (hsz : sizes.length = input.rank) :
    Verdict (crop ⟨g, n⟩) (output.format = .blocked16 ∧ ∃ a o, input.padding.axes[1]? = some a ∧
      offsets[1]? = some o ∧ (a.lower + o) % 16 ≠ 0) := by
  have haxes : input.padding.axes.length = input.shape.dims.length :=
    (Layout.isValid_iff.1 (Bool.and_eq_true_iff.1 halloc).1).2
  simp only [crop, hop]
  refine .bind_ok (inputLayout_eq_ok.2 ⟨into, hin, hi⟩) (.bind_ok ho ?_)
  rw [if_neg (by simp [helem, hfmt]), if_neg (by simp [hd])]
  refine .bind (windowPadding_onlyOverflow haxes hoff hsz) fun axes hw => ?_
  obtain ⟨hlen, hall⟩ := windowPadding_eq_ok haxes hoff hsz hw
  have hsettled : (Padding.mk axes).hasDynamic = false :=
    (hasDynamic_windowPadding haxes hoff hsz hw).2 (Shape.isStatic_iff_unknown.1 hs)
  have hvalid : (output.withPadding ⟨axes⟩).isValid = true := by
    refine Layout.isValid_iff.2 ⟨(Layout.isValid_iff.1 hv).1, ?_⟩
    exact hlen.trans hrank.symm
  have hlower : output.format = .blocked16 → ∃ a o, input.padding.axes[1]? = some a ∧
      offsets[1]? = some o ∧ (Padding.mk axes).lower[1]?.getD 0 = a.lower + o := by
    intro hb
    refine lower_windowPadding haxes hoff hsz hw (Shape.isStatic_iff_unknown.1 hs) ?_
    have := (Layout.isValid_iff.1 hv).1
    rw [hb, hrank] at this
    have hr : input.rank = 4 := by simpa [Format.holdsRank, Format.maxRank] using this
    have hlt : 1 < input.rank := by omega
    exact hlt
  split
  · next hbad =>
    refine .of_reject ?_
    rw [← Bool.not_eq_true, Layout.isAllocatable_iff hsettled] at hbad
    simp only [hvalid, true_and, Classical.not_imp] at hbad
    obtain ⟨hb, hmod⟩ := hbad
    obtain ⟨a, o, ha, ho, hl⟩ := hlower hb
    exact ⟨hb, a, o, ha, ho, hl ▸ hmod⟩
  · next hgood =>
    have hgood := ((Layout.isAllocatable_iff hsettled).1 (by simpa using hgood)).2
    have hnot : ¬ (output.format = .blocked16 ∧ ∃ a o, input.padding.axes[1]? = some a ∧
        offsets[1]? = some o ∧ (a.lower + o) % 16 ≠ 0) := by
      rintro ⟨hb, a, o, ha, ho, hne⟩
      obtain ⟨a', o', ha', ho', hl⟩ := hlower hb
      obtain rfl := Option.some.inj (ha.symm.trans ha')
      obtain rfl := Option.some.inj (ho.symm.trans ho')
      exact hne (hl ▸ hgood hb)
    rw [hs]
    refine .bind (windowOffset_onlyOverflow hs hd halloc hoff) fun _ _ => ?_
    exact .bind_ok hin (.of_eligible hnot)

end Views

/-- A slice may not begin inside a block. -/
theorem isAllocatable_sliceLayout {axis before after : Nat} {l : Layout} (hv : l.isValid = true)
    (haxis : axis < l.rank) :
    (sliceLayout axis l (.known before) (.known after)).isAllocatable = true ↔
      (l.format = .blocked16 → axis = 1 → before % 16 = 0) := by
  have hd : (sliceLayout axis l (.known before) (.known after)).padding.hasDynamic = false := by
    simp only [sliceLayout, Layout.withPadding, Padding.set, Padding.zero, Padding.hasDynamic,
      List.any_eq_false]
    intro a ha
    rcases List.mem_or_eq_of_mem_set ha with ha | rfl
    · rw [(List.mem_replicate.1 ha).2]
      simp [AxisPadding.zero]
    · simp [slicePadding, AxisPadding.fixed]
  have hvalid : (sliceLayout axis l (.known before) (.known after)).isValid = true :=
    Layout.isValid_iff.2 ⟨(Layout.isValid_iff.1 hv).1, by
      simp [sliceLayout, Layout.withPadding, Padding.set, Padding.zero, Layout.rank]⟩
  rw [Layout.isAllocatable_iff hd, and_iff_right hvalid]
  refine imp_congr_right fun hb => ?_
  by_cases h1 : axis = 1
  · subst h1
    simp [sliceLayout, Layout.withPadding, Padding.set, Padding.zero, Padding.lower, haxis,
      slicePadding, AxisPadding.fixed]
  · have hrank : 1 < l.rank := by
      have := (Layout.isValid_iff.1 hv).1
      rw [show l.format = .blocked16 from hb] at this
      have : l.rank = 4 := by simpa [Format.holdsRank, Format.maxRank] using this
      omega
    simp [sliceLayout, Layout.withPadding, Padding.set, Padding.zero, Padding.lower, h1, hrank,
      AxisPadding.zero]

/-- The dims of nodes on an axis are these sizes. -/
def Extents (g : Graph) (axis : Nat) (ids : List NodeId) (sizes : List Nat) : Prop :=
  List.Forall₂ (fun m s => g.dim? axis m = some (.known s)) ids sizes

theorem exists_pairs {α β : Type} {P : α → β → Prop} {xs : List α} (h : ∀ x ∈ xs, ∃ y, P x y) :
    ∃ ps : List (α × β), ps.map (·.1) = xs ∧ ∀ q ∈ ps, P q.1 q.2 := by
  induction xs with
  | nil => exact ⟨[], rfl, by simp⟩
  | cons x xs ih =>
    obtain ⟨y, hy⟩ := h x List.mem_cons_self
    obtain ⟨ps, hps, hall⟩ := ih fun z hz => h z (List.mem_cons_of_mem _ hz)
    refine ⟨(x, y) :: ps, by simp [hps], fun q hq => ?_⟩
    rcases List.mem_cons.1 hq with rfl | hq
    · exact hy
    · exact hall q hq

theorem Extents.unique {axis : Nat} {ids : List NodeId} {sizes sizes' : List Nat}
    (h : Extents g axis ids sizes) (h' : Extents g axis ids sizes') : sizes = sizes' := by
  induction h generalizing sizes' with
  | nil => cases h'; rfl
  | cons hx _ ih =>
    obtain _ | ⟨hx', hr⟩ := h'
    rw [ih hr]
    rw [hx] at hx'
    rw [Dim.known.inj (Option.some.inj hx')]

/-- Nodes of known shapes have known dims. -/
theorem exists_extents {axis : Nat} {ids : List NodeId} {ds : List Dim}
    (h : List.Forall₂ (fun m d => g.dim? axis m = some d) ids ds)
    (hs : ∀ m ∈ ids, ∀ l, g.layout m = .ok l → l.isStatic = true) :
    ∃ es : List Nat, ds = es.map .known ∧ Extents g axis ids es := by
  obtain ⟨es, rfl⟩ : ∃ es : List Nat, ds = es.map .known := by
    refine Shape.exists_sizes (s := ⟨ds⟩) (Shape.isStatic_iff_unknown.2 fun hu => ?_)
    obtain ⟨i, hi, hu⟩ := List.mem_iff_getElem.1 hu
    have hi' : i < ids.length := h.length_eq ▸ hi
    obtain ⟨l, hl, hd⟩ := Graph.dim?_eq_some.1 (h.get hi' hi)
    rw [List.get_eq_getElem, hu] at hd
    exact Shape.isStatic_iff_unknown.1 (hs _ (List.getElem_mem hi') l hl) (List.mem_of_getElem? hd)
  rw [List.forall₂_map_right_iff] at h
  exact ⟨es, rfl, h⟩

/-- Inputs that can write their slices do so unless a slice begins inside a block. -/
theorem concatenation_verdict {axis : Nat} (hop : n.op = .concatenation axis)
    (ho : g.layout n.id = .ok output)
    (hw : ∀ m ∈ n.inputs, ∃ l, SliceWriter g n.id output m l ∧ axis < l.rank ∧
      l.isStatic = true ∧ l.isValid = true) :
    Verdict (concatenation ⟨g, n⟩) (axis = 1 ∧ output.format = .blocked16 ∧ ∃ i earlier,
      i < n.inputs.length ∧ Extents g axis (n.inputs.take i) earlier ∧ earlier.sum % 16 ≠ 0) := by
  obtain ⟨producers, hids, hwriters⟩ := exists_pairs hw
  simp only [concatenation, hop]
  refine .bind_ok ho (.bind_ok (sliceProducers_eq_inr.2
    ⟨hids, fun q hq => (hwriters q hq).1⟩) ?_)
  refine .bind (Result.mapM_onlyOverflow fun q hq => Result.onlyOverflow_entry ?_)
    fun extents hex => ?_
  · rw [Option.isSome_iff_exists]
    exact ⟨_, List.getElem?_eq_getElem (hwriters q hq).2.1⟩
  have hex : List.Forall₂ (fun q d => q.2.shape.dims[axis]? = some d) producers extents :=
    (Result.mapM_eq_ok.1 hex).imp fun _ _ he => Result.entry_eq_ok.1 he
  refine .bind (extentsAfter_onlyOverflow extents) fun after haft => ?_
  have hafter := extentsAfter_eq_ok haft
  have hlen : after.length = extents.length := by simp [hafter]
  obtain ⟨sizes, rfl, hext⟩ : ∃ sizes : List Nat, extents = sizes.map .known ∧
      Extents g axis n.inputs sizes := by
    refine exists_extents ?_ fun m hm l hl => ?_
    · rw [← hids, List.forall₂_map_left_iff]
      refine List.forall₂_iff_get.2 ⟨hex.length_eq, fun i h₁ h₂ => ?_⟩
      exact Graph.dim?_eq_some.2 ⟨_, (hwriters _ (List.getElem_mem h₁)).1.layout, hex.get h₁ h₂⟩
    · obtain ⟨l', hl', -, hstatic, -⟩ := hw m hm
      obtain rfl := Except.ok.inj (hl.symm.trans hl'.layout)
      exact hstatic
  have hslices : ∀ {i s}, (slicesFrom producers (sizes.map .known) after)[i]? = some s →
      (s.layout.isValid = true ∧ axis < s.layout.rank ∧ s.layout.format = output.format) ∧
        i < n.inputs.length ∧ s.after = .known (sizes.drop (i + 1)).sum := by
    intro i s hs
    obtain ⟨hq, -, haft⟩ := (getElem?_slicesFrom hafter).1 hs
    obtain ⟨hw, haxis, -, hv⟩ := hwriters _ (List.mem_of_getElem? hq)
    refine ⟨⟨hv, haxis, hw.format⟩, ?_, ?_⟩
    · rw [← hids, List.length_map]
      exact (List.getElem?_eq_some_iff.1 hq).1
    · rw [haft, ← List.map_drop, Dim.total_known]
  have hbefore : ∀ {i : Nat} {b : Dim}, (((slicesFrom producers (sizes.map .known) after).map
      (·.extent)).take i).foldlM Dim.add (.known 0) = .ok b → b = .known (sizes.take i).sum := by
    intro i b hb
    rw [map_extent_slicesFrom hex.length_eq hlen, ← List.map_take] at hb
    rw [Dim.foldlM_add_eq_ok hb, Dim.zero_plus, Dim.total_known]
  refine .bind (placeSlices_onlyOverflow fun s hs => ?_) fun placed hp => ?_
  · obtain ⟨i, hi⟩ := List.mem_iff_getElem?.1 hs
    exact (hslices hi).1.2.1
  cases placed with
  | none =>
    obtain ⟨i, s, b, hs, hb, hbad⟩ := exists_of_placeSlices_none hp
    obtain ⟨⟨hv, haxis, hfmt⟩, hi, haft⟩ := hslices hs
    obtain rfl := hbefore hb
    rw [← Bool.not_eq_true, haft, isAllocatable_sliceLayout hv haxis, hfmt] at hbad
    simp only [Classical.not_imp] at hbad
    obtain ⟨hblocked, rfl, hmod⟩ := hbad
    exact .of_reject ⟨rfl, hblocked, i, sizes.take i, hi, List.forall₂_take i hext, hmod⟩
  | some placed =>
    obtain ⟨edges, layouts⟩ := placed
    refine .of_eligible ?_
    rintro ⟨rfl, hblocked, i, earlier, hi, hearlier, hmod⟩
    obtain rfl := hearlier.unique (List.forall₂_take i hext)
    have hi' : i < (slicesFrom producers (sizes.map .known) after).length := by
      rw [length_slicesFrom hex.length_eq hlen, ← hex.length_eq]
      simpa [← hids] using hi
    have hs := List.getElem?_eq_getElem hi'
    obtain ⟨b, hb, -, -, halloc⟩ := (placeSlices_eq_some hp).2.2 i _ hs
    obtain ⟨⟨hv, haxis, hfmt⟩, -, haft⟩ := hslices hs
    obtain rfl := hbefore hb
    rw [haft, isAllocatable_sliceLayout hv haxis, hfmt] at halloc
    exact hmod (halloc hblocked rfl)

end Fuse
end BufferFusion
