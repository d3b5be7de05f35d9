import BufferFusion.Proofs.Fusion.Concrete
import BufferFusion.Proofs.Inference.Identity
import BufferFusion.Proofs.Kernel.Answers
import BufferFusion.Proofs.Layout.Within
import BufferFusion.Proofs.Memory.RoundTrip

/-!
# Slices written one after another

The slices of a concatenation lie apart in one memory. So values that are written through them are
all there in the end, whatever the order is, and what is then read through the concatenation's own
layout is what its kernel answers.
-/
namespace BufferFusion

namespace Layout

/-- The cell is the place of an element of the layout. -/
def HasCell (l : Layout) (o : Nat) : Prop :=
  ∃ sizes index, l.shape.sizes? = some sizes ∧ List.Forall₂ (· < ·) index sizes ∧
    l.cellOf sizes index = o

/-- The layouts have no cell in common. -/
def Apart (l l' : Layout) : Prop := ∀ o, l.HasCell o → ¬ l'.HasCell o

theorem Apart.symm {l l' : Layout} (h : l.Apart l') : l'.Apart l := fun o ho' ho => h o ho ho'

end Layout

namespace Memory

variable {m m' : Memory} {writes : List (Layout × List Float)} {k : Nat}

/-- Writes values through one layout after another, up to the first failure. -/
def writeAll : List (Layout × List Float) → Memory → Memory × Result Unit
  | [], m => (m, .ok ())
  | (l, xs) :: writes, m =>
    match m.write l xs with
    | (m', .ok ()) => writeAll writes m'
    | failed => failed

theorem writeAll_ok (h : ∀ w ∈ writes, ∀ m : Memory, k ≤ m.size →
      ∃ m', m.write w.1 w.2 = (m', .ok ())) (hroom : k ≤ m.size) :
    ∃ m', m.writeAll writes = (m', .ok ()) ∧ m'.size = m.size := by
  induction writes generalizing m with
  | nil => exact ⟨m, rfl, rfl⟩
  | cons w writes ih =>
    obtain ⟨l, xs⟩ := w
    rw [List.forall_mem_cons] at h
    obtain ⟨m₁, hw⟩ := h.1 m hroom
    have hsize : m₁.size = m.size := by rw [← size_write m l xs, hw]
    obtain ⟨m', hm', hs⟩ := @ih m₁ h.2 (hsize ▸ hroom)
    refine ⟨m', ?_, hs.trans hsize⟩
    simp only [writeAll, hw]
    exact hm'

/-- What is written through layouts that lie apart is held in the end, and other cells stay. -/
theorem holds_of_writeAll (hv : ∀ w ∈ writes, w.1.isValid = true)
    (hapart : writes.Pairwise fun w w' => w.1.Apart w'.1)
    (h : m.writeAll writes = (m', .ok ())) : (∀ w ∈ writes, m'.Holds w.1 w.2) ∧
      ∀ o, (∀ w ∈ writes, ¬ w.1.HasCell o) → m'.cells[o]? = m.cells[o]? := by
  induction writes generalizing m with
  | nil =>
    obtain rfl := (Prod.mk.inj h).1
    exact ⟨by simp, fun o _ => rfl⟩
  | cons w writes ih =>
    obtain ⟨l, xs⟩ := w
    rw [List.forall_mem_cons] at hv
    rw [List.pairwise_cons] at hapart
    simp only [writeAll] at h
    split at h
    swap
    · next hfailed => exact absurd h (hfailed m')
    next m₁ hw =>
    obtain ⟨hrest, hframe⟩ := ih hv.2 hapart.2 h
    obtain ⟨hfirst, hkeep⟩ := holds_of_write hv.1 hw
    constructor
    · -- the later writes leave the cells of the first one as they are
      have hkept := hfirst.frame fun index ⟨_, hs', hi⟩ sizes hs =>
        hframe (l.cellOf sizes index) fun w hmem =>
          hapart.1 w hmem _ ⟨sizes, index, hs, Option.some.inj (hs'.symm.trans hs) ▸ hi, rfl⟩
      exact List.forall_mem_cons.2 ⟨hkept, hrest⟩
    · intro o ho
      rw [List.forall_mem_cons] at ho
      rw [hframe o ho.2]
      exact hkeep o fun index sizes hs hi he => ho.1 ⟨sizes, index, hs, hi, he⟩

end Memory

/-- A value for each element of a layout of known dims. -/
def Logical.Fills (v : Logical) (l : Layout) : Prop :=
  l.shape.sizes? = some v.sizes ∧ v.values.size = v.sizes.prod

namespace Fuse

variable {g : Graph} {n : Node} {p : Proposal} {axis k count : Nat} {output : Layout}
  {extents : List Dim} {values : InputValues} {es dims : List Nat} {layouts : List Layout}
  {parts : List Logical} {a : Addressing}

/-- The values of the parts, each with the layout that they are written through. -/
def sliceWrites (layouts : List Layout) (parts : List Logical) : List (Layout × List Float) :=
  List.zipWith (fun l part => (l, part.values.toList)) layouts parts

/-- The layouts cut an unpadded output into slices of the given extents along the axis. -/
structure Cuts (output : Layout) (axis : Nat) (es dims : List Nat) (layouts : List Layout) :
    Prop where
  valid : output.isValid = true
  unpadded : output.padding = .zero output.rank
  dims_eq : output.shape.sizes? = some dims
  total : dims[axis]? = some es.sum
  length : layouts.length = es.length
  slice : ∀ {i : Nat} {l : Layout}, layouts[i]? = some l → ∃ e sizes, es[i]? = some e ∧
    l.isValid = true ∧ l.padding.hasDynamic = false ∧ l.format = output.format ∧
      l.Sliced axis (es.take i).sum e (es.drop (i + 1)).sum dims sizes

namespace Cuts

variable (c : Cuts output axis es dims layouts)

include c

theorem pairwise : layouts.Pairwise Layout.Apart := by
  refine List.pairwise_iff_getElem.2 fun i j hi hj hij o ho ho' => ?_
  obtain ⟨e, sizes, he, hv, -, hf, kl⟩ := c.slice (List.getElem?_eq_getElem hi)
  obtain ⟨e', sizes', -, hv', -, hf', kl'⟩ := c.slice (List.getElem?_eq_getElem hj)
  obtain ⟨t, index, ht, hlt, hcell⟩ := ho
  obtain ⟨t', index', ht', hlt', hcell'⟩ := ho'
  obtain rfl := Option.some.inj (ht.symm.trans kl.sizes_eq)
  obtain rfl := Option.some.inj (ht'.symm.trans kl'.sizes_eq)
  exact kl.cell_ne kl' hv hv' (hf'.trans hf.symm) (List.sum_take_lt he hij) hlt hlt'
    (hcell.trans hcell'.symm)

theorem pairwise_writes (parts : List Logical) :
    (sliceWrites layouts parts).Pairwise fun w w' => w.1.Apart w'.1 := by
  refine List.pairwise_iff_getElem.2 fun i j hi hj hij => ?_
  simp only [sliceWrites, List.getElem_zipWith]
  exact List.pairwise_iff_getElem.1 c.pairwise i j _ _ hij

theorem isPart (hparts : List.Forall₂ (fun l part => part.Fills l) layouts parts) :
    List.Forall₂ (Kernel.IsPart axis dims) parts es := by
  refine List.forall₂_of_length_eq_of_get (hparts.length_eq.symm.trans c.length)
    fun i hi hi' => ?_
  have hlt : i < layouts.length := c.length ▸ hi'
  obtain ⟨e, sizes, he, -, -, -, kl⟩ := c.slice (List.getElem?_eq_getElem hlt)
  obtain ⟨hs, hsize⟩ : parts[i].Fills layouts[i] := hparts.get hlt hi
  obtain rfl := Option.some.inj (kl.sizes_eq.symm.trans hs)
  rw [List.getElem?_eq_getElem hi'] at he
  obtain rfl := Option.some.inj he
  exact ⟨parts[i].values.toList, parts[i].sizes, rfl, by simpa using hsize, kl.length, kl.entry,
    kl.off_axis⟩

/-- The buffer of the output has room for each of the writes. -/
theorem write_ok (hf : output.footprint = .ok k) (ha : output.addressing = .ok a)
    (hcount : Size.product dims = .ok count)
    (hparts : List.Forall₂ (fun l part => part.Fills l) layouts parts) :
    ∀ w ∈ sliceWrites layouts parts, w.1.isValid = true ∧
      ∀ m : Memory, k ≤ m.size → ∃ m', m.write w.1 w.2 = (m', .ok ()) := by
  intro w hw
  obtain ⟨i, hi⟩ := List.mem_iff_getElem?.1 hw
  obtain ⟨l, part, hl, hpart, rfl⟩ := List.getElem?_zipWith_eq_some.1 hi
  obtain ⟨e, sizes, -, hv, hd, hformat, kl⟩ := c.slice hl
  obtain ⟨hs, hsize⟩ := forall₂_getElem? hparts hl hpart
  obtain rfl := Option.some.inj (kl.sizes_eq.symm.trans hs)
  have halong := kl.alongside hformat c.dims_eq c.unpadded
  obtain ⟨a', ha'⟩ := halong.exists_addressing hv hd ha
  obtain ⟨number, hnumber, -⟩ := Size.product_mono kl.le hcount
  have hlength : part.values.toList.length = number := by
    rw [Array.length_toList, hsize, Size.prod_of_product hnumber]
  exact ⟨hv, fun m hroom => Memory.write_ok hv (halong.footprint_eq hv hd hf) hroom ha' kl.sizes_eq
    (hlength ▸ hnumber)⟩

/-- Parts that are written through their slices are read as what the kernel answers. -/
theorem read_eq (hf : output.footprint = .ok k) (ha : output.addressing = .ok a)
    (hcount : Size.product dims = .ok count)
    (hparts : List.Forall₂ (fun l part => part.Fills l) layouts parts)
    {writes : List (Layout × List Float)} (hperm : writes.Perm (sliceWrites layouts parts))
    {m : Memory} (hroom : k ≤ m.size) (hm : m.size ≤ Size.capacity 8) :
    ∃ m' ys, m.writeAll writes = (m', .ok ()) ∧ Kernel.concatenate parts axis dims = .ok ys ∧
      m'.read output = .ok ys := by
  have hok := fun w hw => c.write_ok hf ha hcount hparts w (hperm.mem_iff.1 hw)
  obtain ⟨m', hwrites, hsize⟩ := Memory.writeAll_ok (fun w hw => (hok w hw).2) hroom
  have hapart := (hperm.pairwise_iff Layout.Apart.symm).2 (c.pairwise_writes parts)
  obtain ⟨hholds, -⟩ := Memory.holds_of_writeAll (fun w hw => (hok w hw).1) hapart hwrites
  have hreserve := Memory.reserve_of_room c.valid hf hroom hm c.dims_eq
  rw [Size.prod_of_product hcount] at hreserve
  obtain ⟨ys, hys, hlen⟩ := Kernel.concatenate_ok (c.isPart hparts) c.total hcount hreserve
  refine ⟨m', ys, hwrites, hys, Memory.read_of_holds c.valid hf ha c.dims_eq hcount hreserve ?_⟩
  refine Memory.holds_concatenation c.dims_eq c.unpadded c.total
    (hparts.length_eq.symm.trans c.length) (fun {i e} he => ?_) hys
    (hlen.trans (Size.prod_of_product hcount).symm)
  have hlt : i < layouts.length := c.length ▸ (List.getElem?_eq_some_iff.1 he).1
  have hl := List.getElem?_eq_getElem hlt
  have hlt' : i < parts.length := hparts.length_eq ▸ hlt
  have hpart := List.getElem?_eq_getElem hlt'
  obtain ⟨e', sizes, he', -, -, hformat, kl⟩ := c.slice hl
  obtain rfl := Option.some.inj (he.symm.trans he')
  obtain ⟨hs, -⟩ := forall₂_getElem? hparts hl hpart
  obtain rfl := Option.some.inj (kl.sizes_eq.symm.trans hs)
  refine ⟨layouts[i], parts[i].sizes, parts[i].values.toList, hformat, hpart, ?_, kl⟩
  exact hholds _ (hperm.mem_iff.2 (List.mem_of_getElem?
    (List.getElem?_zipWith_eq_some.2 ⟨_, _, hl, hpart, rfl⟩)))

end Cuts

/-- An accepted concatenation of known shapes cuts its output. -/
theorem InPlaceProposal.cuts (k : InPlaceProposal g n p axis output extents)
    (hinf : InferenceTable.standard.infer ⟨g, n, values⟩ = .ok output)
    (hstatic : ∀ x ∈ n.inputs, ∀ l, g.layout x = .ok l → l.isStatic = true) :
    ∃ es dims, Extents g axis n.inputs es ∧ Cuts output axis es dims (p.layouts.map (·.2)) ∧
      ∀ i x, n.inputs[i]? = some x → ∃ l, g.layout x = .ok l ∧ p.layouts[i]? = some
        (x, l.withPadding ((Padding.zero l.rank).set axis
          (.fixed (es.take i).sum (es.drop (i + 1)).sum))) := by
  obtain ⟨es, rfl, hext⟩ := exists_extents k.dims hstatic
  have hslice : ∀ {i x}, n.inputs[i]? = some x → ∃ l s, SliceWriter g n.id output x l ∧
      p.layouts[i]? = some (x, s) ∧ s.isAllocatable = true ∧
      s = l.withPadding ((Padding.zero l.rank).set axis
        (.fixed (es.take i).sum (es.drop (i + 1)).sum)) := by
    intro i x hx
    obtain ⟨l, extent, before, hw, -, -, hb, -, hlayout, halloc⟩ := k.slice hx
    obtain rfl := Dim.foldlM_add_eq_ok hb
    rw [sliceLayout, Dim.zero_plus, ← List.map_take, ← List.map_drop, Dim.slicePadding_known]
      at hlayout halloc
    exact ⟨l, _, hw, hlayout, halloc, rfl⟩
  obtain ⟨ins, hins⟩ : ∃ ins, g.Lays n.inputs ins := Graph.exists_lays fun x hx => by
    obtain ⟨i, hi⟩ := List.mem_iff_getElem?.1 hx
    obtain ⟨l, _, hw, -⟩ := hslice hi
    exact ⟨l, hw.layout⟩
  have hknown : ∀ l ∈ ins, l.isStatic = true := by
    intro l hl
    obtain ⟨x, hx, hlayout⟩ := hins.exists_of_mem hl
    exact hstatic x hx l hlayout
  obtain ⟨hyields, hvalid⟩ := @Infer.concatenation_of_infer ⟨g, n, values⟩ _ _ hinf _ k.op hins
  obtain ⟨dims, hdims⟩ := Option.isSome_iff_exists.1
    ((Shape.isStatic_iff_sizes? _).1 (hyields.concatenation_static hknown))
  obtain ⟨htotal, hsliced⟩ := hyields.sliced hknown (hext.of_lays hins) hdims
  refine ⟨es, dims, hext, ⟨hvalid, hyields.unpadded, hdims, htotal, ?_, fun {i l} hl => ?_⟩,
    fun i x hx => ?_⟩
  · rw [List.length_map, k.length_layouts]
    exact hext.length_eq
  · rw [List.getElem?_map] at hl
    obtain ⟨⟨x', l'⟩, hlayout, rfl⟩ := Option.map_eq_some_iff.1 hl
    have hlt : i < n.inputs.length := k.length_layouts ▸ (List.getElem?_eq_some_iff.1 hlayout).1
    have hx := List.getElem?_eq_getElem hlt
    obtain ⟨l₀, s, hw, hlayout', halloc, hs⟩ := hslice hx
    obtain ⟨-, rfl⟩ := Prod.mk.inj (Option.some.inj (hlayout'.symm.trans hlayout))
    have hshape : s.shape = l₀.shape := hs ▸ rfl
    have hpad : s.padding = (Padding.zero s.rank).set axis
        (.fixed (es.take i).sum (es.drop (i + 1)).sum) := hs ▸ rfl
    have hformat : s.format = output.format := hs ▸ hw.format
    obtain ⟨e, sizes, he, kl⟩ := hsliced (hins.getElem? hx hw.layout) hshape hpad
    exact ⟨e, sizes, he, Layout.isValid_of_isAllocatable halloc,
      hpad ▸ Padding.hasDynamic_set_fixed .., hformat, kl⟩
  · obtain ⟨l, _, hw, hlayout, -, rfl⟩ := hslice hx
    exact ⟨l, hw.layout, hlayout⟩

/-- A concatenation that is done in place gives each producer a slice of its own buffer, behind the
extents before it on the axis. Values that are written through all the slices, in any order, are
read through the concatenation's own layout as what its kernel answers on them. All this for
producers of known shapes, as long as the sizes of the concatenation do not overflow. -/
theorem concatenation_in_place (hop : n.op = .concatenation axis)
    (hout : g.layout n.id = .ok output)
    (hinf : InferenceTable.standard.infer ⟨g, n, values⟩ = .ok output)
    (hstatic : ∀ x ∈ n.inputs, ∀ l, g.layout x = .ok l → l.isStatic = true)
    (h : concatenation ⟨g, n⟩ = .ok (.eligible p))
    (hfootprint : output.footprint ≠ .error (.fault .overflow))
    (haddressing : output.addressing ≠ .error (.fault .overflow))
    (hcount : output.count ≠ .error (.fault .overflow)) :
    ∃ es dims k, Extents g axis n.inputs es ∧ output.shape.sizes? = some dims ∧
      output.footprint = .ok k ∧ p.layouts.map (·.1) = n.inputs ∧
      (∀ i x, n.inputs[i]? = some x → ∃ l, g.layout x = .ok l ∧ p.layouts[i]? = some
        (x, l.withPadding ((Padding.zero l.rank).set axis
          (.fixed (es.take i).sum (es.drop (i + 1)).sum)))) ∧
      ∀ parts writes, List.Forall₂ (fun l part => part.Fills l) (p.layouts.map (·.2)) parts →
        writes.Perm (sliceWrites (p.layouts.map (·.2)) parts) →
        ∀ m : Memory, k ≤ m.size → m.size ≤ Size.capacity 8 → ∃ m' ys,
          m.writeAll writes = (m', .ok ()) ∧ Kernel.concatenate parts axis dims = .ok ys ∧
            m'.read output = .ok ys := by
  obtain ⟨output', extents, hp⟩ := concatenation_eligible hop h
  obtain rfl := Except.ok.inj (hout.symm.trans hp.output_layout)
  obtain ⟨es, dims, hext, c, hlayouts⟩ := hp.cuts hinf hstatic
  have hs : output.isStatic = true := (Shape.isStatic_iff_sizes? _).2 (by simp [c.dims_eq])
  have hd : output.padding.hasDynamic = false := by
    rw [c.unpadded]
    exact Padding.hasDynamic_zero _
  obtain ⟨k, hf⟩ := (Layout.footprint_onlyOverflow hs hd c.valid).eq_ok hfootprint
  obtain ⟨a, ha⟩ := (Layout.addressing_onlyOverflow hs hd c.valid).eq_ok haddressing
  obtain ⟨count, hproduct⟩ := Layout.product_ok c.dims_eq hcount
  exact ⟨es, dims, k, hext, c.dims_eq, hf, hp.keys, hlayouts, fun parts writes hparts hperm m =>
    c.read_eq hf ha hproduct hparts hperm⟩

/-- Sixteen features and three more, joined in blocks of sixteen. -/
def stackedSample : Graph :=
  (InferenceTable.standard.inferGraph [] <|
    ((((Graph.empty.place "a" (.input (.unpadded (.ofSizes [1, 16, 1, 1]) .f32 .bfyx)) []).place
      "b" (.input (.unpadded (.ofSizes [1, 3, 1, 1]) .f32 .bfyx)) []).place
        "left" (.reorder .blocked16 .f32) [0]).place
          "right" (.reorder .blocked16 .f32) [1]).place
            "joined" (.concatenation 1) [2, 3]).1

def stackedNode : Node :=
  ⟨4, "joined", .concatenation 1, [2, 3],
    some (.unpadded (.ofSizes [1, 19, 1, 1]) .f32 .blocked16), .unanalyzed, none⟩

def stackedParts : List Logical :=
  [⟨((List.range 16).map Float.ofNat).toArray, [1, 16, 1, 1]⟩, ⟨#[16, 17, 18], [1, 3, 1, 1]⟩]

/-- The second part is written first. -/
theorem concatenation_in_place_stackedSample : ∃ p m',
    concatenation ⟨stackedSample, stackedNode⟩ = .ok (.eligible p) ∧
      (⟨.f32, .replicate 32 0⟩ : Memory).writeAll
        (sliceWrites (p.layouts.map (·.2)) stackedParts).reverse = (m', .ok ()) ∧
      m'.read (.unpadded (.ofSizes [1, 19, 1, 1]) .f32 .blocked16) =
        .ok ((List.range 19).map Float.ofNat) := by
  have hinf : InferenceTable.standard.infer ⟨stackedSample, stackedNode, []⟩ =
      .ok (.unpadded (.ofSizes [1, 19, 1, 1]) .f32 .blocked16) := rfl
  have hleft : stackedSample.layout 2 =
      .ok (.unpadded (.ofSizes [1, 16, 1, 1]) .f32 .blocked16) := rfl
  have hright : stackedSample.layout 3 =
      .ok (.unpadded (.ofSizes [1, 3, 1, 1]) .f32 .blocked16) := rfl
  have hstatic : ∀ x ∈ stackedNode.inputs, ∀ l, stackedSample.layout x = .ok l →
      l.isStatic = true := by
    intro x hx l hl
    obtain rfl | rfl : x = 2 ∨ x = 3 := by simpa [stackedNode] using hx
    · obtain rfl := Except.ok.inj (hleft.symm.trans hl)
      rfl
    · obtain rfl := Except.ok.inj (hright.symm.trans hl)
      rfl
  obtain ⟨es, dims, k, -, hdims, hk, -, -, h⟩ :=
    concatenation_in_place rfl rfl hinf hstatic rfl (by nofun) (by nofun) (by nofun)
  obtain rfl := Option.some.inj (hdims.symm.trans (show _ = some [1, 19, 1, 1] from rfl))
  obtain rfl := Except.ok.inj (hk.symm.trans (show _ = Except.ok 32 from rfl))
  obtain ⟨m', ys, hwrites, hys, hread⟩ := h stackedParts _
    (.cons ⟨rfl, rfl⟩ (.cons ⟨rfl, rfl⟩ .nil)) (List.reverse_perm _) ⟨.f32, .replicate 32 0⟩
    (by decide) (by decide)
  have hjoined : Kernel.concatenate stackedParts 1 [1, 19, 1, 1] =
      .ok ((List.range 19).map Float.ofNat) := rfl
  obtain rfl := Except.ok.inj (hys.symm.trans hjoined)
  exact ⟨_, m', rfl, hwrites, hread⟩

end Fuse
end BufferFusion
