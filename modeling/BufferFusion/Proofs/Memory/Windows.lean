import Mathlib.Data.Nat.ModEq
import BufferFusion.Proofs.Execution.Shown
import BufferFusion.Proofs.Layout.Within
import BufferFusion.Proofs.Memory.RoundTrip
import BufferFusion.Proofs.Pass.Answers

/-!
# Windows read in place

Offsets that begin a block move every index by the same number of elements. So a crop that is read
out of its input's buffer lies as far behind the input as its first element does, and what is read
through its layout is what its kernel answers.
-/
namespace BufferFusion

namespace Addressing

variable {block : Option (Nat × Nat)} {axis c o stride : Nat} {cs os ss : List Nat}

/-- Whole blocks count the same wherever they are counted from. -/
theorem part_add (h : Aligned block axis o) :
    part block axis (o + c) stride = part block axis o stride + part block axis c stride := by
  simp only [part]
  split
  · next blocked size =>
    split
    · next hb =>
      subst hb
      have hdvd : size ∣ o := Nat.dvd_of_mod_eq_zero (h size rfl)
      rw [Nat.add_div_of_dvd_right hdvd, Nat.add_mod, h size rfl, Nat.zero_add, Nat.mod_mod,
        Nat.add_mul, Nat.add_zero, Nat.add_assoc]
    · exact Nat.add_mul ..
  · exact Nat.add_mul ..

theorem cell_add (hlen : os.length = cs.length)
    (h : ∀ i o, os[i]? = some o → Aligned block (axis + i) o) :
    cell block axis (List.zipWith (· + ·) os cs) ss =
      cell block axis os ss + cell block axis cs ss := by
  induction os generalizing axis cs ss with
  | nil =>
    obtain rfl := List.eq_nil_of_length_eq_zero hlen.symm
    rfl
  | cons o os ih =>
    obtain _ | ⟨c, cs⟩ := cs
    · cases hlen
    obtain _ | ⟨s, ss⟩ := ss
    · rfl
    have hrest := @ih (axis + 1) cs ss (Nat.succ.inj hlen) fun i o hi => by
      rw [Nat.add_assoc, Nat.add_comm 1 i]
      exact h (i + 1) o hi
    have hfirst := @part_add block axis c o s (h 0 o rfl)
    simp only [List.zipWith_cons_cons, cell, hfirst, hrest]
    omega

end Addressing

namespace Layout

variable {l : Layout} {sizes offsets index : List Nat} {n : Nat}

/-- How many elements lie between indices that differ by the offsets. -/
def distance (l : Layout) (sizes offsets : List Nat) : Nat :=
  Addressing.cell l.format.block? 0 offsets (Addressing.strideList (blockSize l.format.block?)
    (outerDims l.format.block? (l.storedSizes sizes)))

/-- Offsets that begin a block move every index by the same distance. -/
theorem cellOf_add (hoff : offsets.length = l.padding.lower.length)
    (hi : index.length = l.padding.lower.length)
    (h : ∀ i o, offsets[i]? = some o → Addressing.Aligned l.format.block? i o) :
    l.cellOf sizes (List.zipWith (· + ·) index offsets) =
      l.cellOf sizes index + l.distance sizes offsets := by
  have hcoords : List.zipWith (· + ·) (List.zipWith (· + ·) index offsets) l.padding.lower =
      List.zipWith (· + ·) offsets (List.zipWith (· + ·) index l.padding.lower) := by
    refine List.ext_getElem (by simp [hoff, hi]) fun j hj hj' => ?_
    simp only [List.getElem_zipWith]
    omega
  rw [cellOf, cellOf, hcoords, Addressing.cell_add (by simp [hoff, hi]) (by simpa using h),
    Nat.add_comm]
  rfl

end Layout

namespace Memory

variable {m : Memory} {l : Layout} {sizes : List Nat} {n count : Nat} {a : Addressing}

/-- A memory with room for a layout is read through it. -/
theorem read_ok (hv : l.isValid = true) (hf : l.footprint = .ok n) (ha : l.addressing = .ok a)
    (hs : l.shape.sizes? = some sizes) (hcount : Size.product sizes = .ok count)
    (hroom : n ≤ m.size) (hm : m.size ≤ Size.capacity 8) : ∃ xs, m.read l = .ok xs := by
  obtain ⟨xs, h⟩ := exists_holds hv hf hroom hs
  have hr := reserve_of_room hv hf hroom hm hs
  rw [Size.prod_of_product hcount] at hr
  exact ⟨xs, read_of_holds hv hf ha hs hcount hr h⟩

end Memory

namespace Kernel

variable {xs : List Float} {dims offsets sizes index : List Nat}

/-- A crop finds a value at every index that its offsets take into the input. -/
theorem exists_shifted (hx : xs.length = dims.prod) (hlimit : dims.prod < Size.limit)
    (hlen : index.length = offsets.length)
    (hlt : List.Forall₂ (· < ·) (List.zipWith (· + ·) index offsets) dims) :
    ∃ y, (do Logical.fetch ⟨xs.toArray, dims⟩ (← shift index offsets)) = .ok y ∧
      Logical.fetch ⟨xs.toArray, dims⟩ (List.zipWith (· + ·) index offsets) = .ok y := by
  have hposition := Addressing.position_lt hlt
  have hshift := @shift_of_lt offsets index hlen fun i hmem => by
    obtain ⟨j, hj, rfl⟩ := List.mem_iff_getElem.1 hmem
    have hj' := hlt.length_eq ▸ hj
    have hle : dims[j] ≤ dims.prod :=
      Nat.le_of_dvd (Nat.zero_lt_of_lt hposition) (List.dvd_prod (List.getElem_mem hj'))
    exact Nat.lt_trans (hlt.get hj hj') (Nat.lt_of_le_of_lt hle hlimit)
  have hentry : Addressing.position (List.zipWith (· + ·) index offsets) dims < xs.length :=
    hx ▸ hposition
  have hfetch := (Logical.fetch_eq_ok hlt.length_eq).2 (List.getElem?_eq_getElem hentry)
  exact ⟨_, Result.bind_eq_ok.2 ⟨_, hshift, hfetch⟩, hfetch⟩

/-- A crop answers where the window lies inside and its input has room. -/
theorem crop_ok {count : Nat} (hx : xs.length = dims.prod) (ho : offsets.length = sizes.length)
    (hlimit : dims.prod < Size.limit)
    (hfits : ∀ index, List.Forall₂ (· < ·) index sizes →
      List.Forall₂ (· < ·) (List.zipWith (· + ·) index offsets) dims)
    (hcount : Size.product sizes = .ok count) (hr : Size.reserve 8 count = .ok ()) :
    ∃ ys, crop ⟨xs.toArray, dims⟩ offsets sizes = .ok ys := by
  refine build_ok hcount hr fun index hi => ?_
  obtain ⟨y, hy, -⟩ := exists_shifted hx hlimit (hi.length_eq.trans ho.symm) (hfits index hi)
  exact ⟨y, hy⟩

end Kernel

namespace Fuse

variable {g : Graph} {n : Node} {offsets sizes dims : List Nat} {input output : Layout}
  {values : InputValues} {p : Proposal} {axes : List AxisPadding} {k : Nat}

/-- The offset of a window is what its first element lies behind that of the input. -/
theorem windowOffset_eq_ok (hs : input.shape.sizes? = some dims) (hv : input.isValid = true)
    (hd : input.padding.hasDynamic = false) (hoff : offsets.length = input.rank)
    (haligned : ∀ i o, offsets[i]? = some o → Addressing.Aligned input.format.block? i o)
    (h : windowOffset input offsets = .ok k) :
    (∃ a, input.addressing = .ok a) ∧ k = input.distance dims offsets := by
  have hstatic : input.isStatic = true := (Shape.isStatic_iff_sizes? _).2 (by simp [hs])
  have hof : ∀ {index : List Nat} {start}, index.length = input.rank →
      (input.offset index).answer? = .ok start → ∃ o, start = some o ∧ input.offset index = .ok o := by
    intro index start hi hx
    cases ho : input.offset index with
    | ok o =>
      rw [ho] at hx
      exact ⟨o, (Except.ok.inj hx).symm, rfl⟩
    | error e =>
      rw [ho, Layout.offset_onlyOverflow hstatic hd hv hi e ho] at hx
      cases hx
  obtain ⟨start, hstart, h⟩ := Result.bind_eq_ok.1 h
  obtain ⟨base, hbase, h⟩ := Result.bind_eq_ok.1 h
  obtain ⟨s, rfl, hs'⟩ := hof hoff hstart
  obtain ⟨b, rfl, hb'⟩ := hof (by simp) hbase
  have hsub := Size.sub_eq_ok.1 h
  obtain ⟨a, ha, hs'⟩ := Result.bind_eq_ok.1 hs'
  obtain ⟨a', ha', hb'⟩ := Result.bind_eq_ok.1 hb'
  obtain rfl := Except.ok.inj (ha.symm.trans ha')
  rw [← Layout.cellOf_of_offset hv hs ha hs', ← Layout.cellOf_of_offset hv hs ha hb'] at hsub
  have hlower : input.padding.lower.length = input.rank := by
    rw [Padding.lower, List.length_map, (Layout.isValid_iff.1 hv).2]
  have hzero : offsets = List.zipWith (· + ·) (List.replicate input.rank 0) offsets :=
    List.ext_getElem (by simp [hoff]) fun j hj hj' => by simp
  have hadd := @Layout.cellOf_add input dims offsets (List.replicate input.rank 0)
    (hoff.trans hlower.symm) (by simp [hlower]) haligned
  rw [← hzero] at hadd
  exact ⟨⟨a, ha⟩, by omega⟩

/-- The offsets of a window that can be laid out begin a block. -/
theorem aligned_of_isAllocatable (halloc : input.isAllocatable = true)
    (hd : input.padding.hasDynamic = false) (hs : input.isStatic = true)
    (hoff : offsets.length = input.rank) (hsz : sizes.length = input.rank)
    (hw : windowPadding input.shape.dims input.padding.axes offsets sizes = .ok axes)
    (hformat : output.format = input.format)
    (hwindow : (output.withPadding ⟨axes⟩).isAllocatable = true) :
    ∀ i o, offsets[i]? = some o → Addressing.Aligned input.format.block? i o := by
  intro i o ho size hb
  obtain ⟨hf, rfl, rfl⟩ := Format.block?_eq_some.1 hb
  have haxes := (Layout.isValid_iff.1 (Layout.isValid_of_isAllocatable halloc)).2
  have hknown := Shape.isStatic_iff_unknown.1 hs
  have hsettled := (hasDynamic_windowPadding haxes hoff hsz hw).2 hknown
  have hlt : 1 < input.rank := hoff ▸ (List.getElem?_eq_some_iff.1 ho).1
  obtain ⟨a, o', ha, ho', hlower⟩ := lower_windowPadding haxes hoff hsz hw hknown hlt
  obtain rfl := Option.some.inj (ho.symm.trans ho')
  have hin := ((Layout.isAllocatable_iff hd).1 halloc).2 hf
  have hout : (Padding.mk axes).lower[1]?.getD 0 % 16 = 0 :=
    ((Layout.isAllocatable_iff hsettled).1 hwindow).2 (hformat.trans hf)
  rw [hlower] at hout
  rw [Padding.lower, List.getElem?_map, ha, Option.map_some, Option.getD_some] at hin
  omega

/-- A window of a known layout: where it lies in the input's buffer. -/
structure WindowOf (input window : Layout) (offsets dims sizes : List Nat) : Prop where
  alongside : input.Alongside window dims sizes
  valid : window.isValid = true
  settled : window.padding.hasDynamic = false
  offsets_length : offsets.length = dims.length
  sizes_length : sizes.length = dims.length
  aligned : ∀ i o, offsets[i]? = some o → Addressing.Aligned input.format.block? i o
  inside : ∀ index, List.Forall₂ (· < ·) index sizes →
    List.Forall₂ (· < ·) (List.zipWith (· + ·) index offsets) dims
  coords : ∀ index, List.Forall₂ (· < ·) index sizes →
    List.zipWith (· + ·) index window.padding.lower =
      List.zipWith (· + ·) (List.zipWith (· + ·) index offsets) input.padding.lower
  small : List.Forall₂ (· ≤ ·) sizes dims

namespace WindowOf

variable {window : Layout} (w : WindowOf input window offsets dims sizes)

include w

/-- What is read through a window is what a crop of the input answers. -/
theorem read_eq {m : Memory} {xs : List Float} (hv : input.isValid = true)
    (hf : input.footprint = .ok k) (h : m.read input = .ok xs) :
    ∃ ys, Kernel.crop ⟨xs.toArray, dims⟩ offsets sizes = .ok ys ∧ m.read window = .ok ys := by
  obtain ⟨dims', a, count, hs, ha, hcount, hr, hlen, -⟩ := Memory.read_eq_ok.1 h
  obtain rfl := Option.some.inj (hs.symm.trans w.alongside.left)
  obtain ⟨count', hcount', hle⟩ := Size.product_mono w.small hcount
  have hr' : Size.reserve 8 count' = .ok () :=
    Size.reserve_eq_ok.2 (hle.trans (Size.reserve_eq_ok.1 hr))
  have hprod := Size.prod_of_product hcount
  obtain ⟨ys, hys⟩ := Kernel.crop_ok (hlen.trans hprod.symm)
    (w.offsets_length.trans w.sizes_length.symm) (hprod ▸ Size.lt_of_product hcount) w.inside
    hcount' hr'
  obtain ⟨a', ha'⟩ := w.alongside.exists_addressing w.valid w.settled ha
  have hholds := (Memory.holds_of_read hv h).window w.alongside w.offsets_length w.sizes_length
    (fun index hi => ⟨w.inside index hi, w.coords index hi⟩) hys
  exact ⟨ys, hys, Memory.read_of_holds w.valid (w.alongside.footprint_eq w.valid w.settled hf) ha'
    w.alongside.right hcount' hr' hholds⟩

/-- An index of the window lies behind that of the input. -/
theorem offset_eq (hv : input.isValid = true) (hf : input.footprint = .ok k) {index : List Nat}
    (hi : List.Forall₂ (· < ·) index sizes) : ∃ o, input.offset index = .ok o ∧
      window.offset index = .ok (o + input.distance dims offsets) := by
  have hbelow : List.Forall₂ (· < ·) index dims := by
    refine List.forall₂_of_length_eq_of_get (hi.length_eq.trans w.sizes_length) fun j hj hj' => ?_
    have hj'' : j < sizes.length := w.sizes_length ▸ hj'
    exact Nat.lt_of_lt_of_le (hi.get hj hj'') (w.small.get hj'' hj')
  have hlower : input.padding.lower.length = dims.length := by
    rw [Padding.lower, List.length_map, (Layout.isValid_iff.1 hv).2,
      Layout.length_sizes w.alongside.left, Layout.rank]
  obtain ⟨ho, -⟩ := Layout.offset_eq_cellOf hv hf w.alongside.left hbelow
  obtain ⟨ho', -⟩ := Layout.offset_eq_cellOf w.valid
    (w.alongside.footprint_eq w.valid w.settled hf) w.alongside.right hi
  refine ⟨_, ho, ?_⟩
  rw [ho', Layout.cellOf_congr w.alongside.format (w.coords index hi) w.alongside.padded,
    Layout.cellOf_add (w.offsets_length.trans hlower.symm) (hbelow.length_eq.trans hlower.symm)
      w.aligned]

end WindowOf

section Crops

variable {into : NodeId} (hop : n.op = .crop offsets sizes) (hinto : g.input n.id 0 = .ok into)
  (hinput : g.layout into = .ok input)

include hop hinto hinput

theorem window_of_infer (hn : g.node? n.id = some n)
    (hinf : InferenceTable.standard.infer ⟨g, n, values⟩ = .ok output) :
    offsets.length = input.rank ∧ sizes.length = input.rank ∧
      Infer.fitsWindow input.shape.dims offsets sizes = .ok true ∧
        output = .unpadded (.ofSizes sizes) input.element input.format := by
  have hread := @Infer.input_of_layout ⟨g, n, values⟩ _ hn _ _ hinto hinput
  cases @Infer.crop_of_infer _ _ _ none hinf _ _ hop hread with
  | crop h₁ h₂ h₃ => exact ⟨h₁, h₂, h₃, rfl⟩

/-- An accepted crop of a known layout is given the layout of its window. -/
theorem windowOf_of_eligible
    (hout : g.layout n.id = .ok (.unpadded (.ofSizes sizes) input.element input.format))
    (hs : input.isStatic = true) (hd : input.padding.hasDynamic = false)
    (halloc : input.isAllocatable = true) (hoff : offsets.length = input.rank)
    (hsz : sizes.length = input.rank)
    (hfits : Infer.fitsWindow input.shape.dims offsets sizes = .ok true)
    (h : crop ⟨g, n⟩ = .ok (.eligible p)) : ∃ window dims, p.layouts = [(n.id, window)] ∧
      WindowOf input window offsets dims sizes ∧ windowOffset input offsets = .ok p.offset := by
  obtain ⟨into', input', output, hv⟩ := crop_eligible hop h
  obtain rfl := Except.ok.inj (hinto.symm.trans hv.reads)
  obtain rfl := Except.ok.inj (hinput.symm.trans hv.input_layout)
  obtain rfl := Except.ok.inj (hout.symm.trans hv.output_layout)
  have hreason := hv.reason
  rw [hop] at hreason
  cases hreason with
  | @crop _ _ axes _ _ _ hw hwindow hoffset hlayouts _ =>
  obtain ⟨dims, hdims⟩ := Option.isSome_iff_exists.1 ((Shape.isStatic_iff_sizes? _).1 hs)
  have hrank : input.rank = dims.length := (Layout.length_sizes hdims).symm
  have haxes := (Layout.isValid_iff.1 (Layout.isValid_of_isAllocatable halloc)).2
  have hsettled := (hasDynamic_windowPadding haxes hoff hsz hw).2 (Shape.isStatic_iff_unknown.1 hs)
  have haligned := @aligned_of_isAllocatable offsets sizes input
    (.unpadded (.ofSizes sizes) input.element input.format) axes halloc hd hs hoff hsz hw rfl hwindow
  rw [Shape.dims_of_sizes? hdims] at hw hfits
  rw [hrank] at hoff hsz haxes
  obtain ⟨hpadded, hcoords⟩ := paddedSizes_window haxes hoff hsz hfits hw
  rw [hs] at hoffset
  exact ⟨_, dims, hlayouts,
    { alongside := ⟨rfl, hdims, Shape.sizes?_ofSizes sizes, hpadded⟩
      valid := Layout.isValid_of_isAllocatable hwindow
      settled := hsettled
      offsets_length := hoff
      sizes_length := hsz
      aligned := haligned
      inside := fun index => Infer.lt_of_fitsWindow hoff hsz hfits
      coords := hcoords
      small := Infer.le_of_fitsWindow hoff hsz hfits }, hoffset⟩

end Crops

/-- A crop is never refused for an offset before its input. What is read through the layout that it
is given is what its kernel answers on what is read through the input's, and every index of the
window lies as far behind that of the input as the proposal says. All this for inputs whose shape
and padding are known, as long as the sizes of the input do not overflow. -/
theorem crop_window (hn : g.node? n.id = some n) (hop : n.op = .crop offsets sizes)
    (hin : g.inputLayout n.id 0 = .ok input) (hout : g.layout n.id = .ok output)
    (hinf : InferenceTable.standard.infer ⟨g, n, values⟩ = .ok output)
    (hs : input.isStatic = true) (hd : input.padding.hasDynamic = false)
    (halloc : input.isAllocatable = true)
    (hfootprint : input.footprint ≠ .error (.fault .overflow))
    (hcount : input.count ≠ .error (.fault .overflow)) :
    (crop ⟨g, n⟩).OnlyOverflow ∧ ∀ p, crop ⟨g, n⟩ = .ok (.eligible p) → ∃ window dims k,
      p.layouts = [(n.id, window)] ∧ input.shape.sizes? = some dims ∧ input.footprint = .ok k ∧
      (∀ m : Memory, k ≤ m.size → m.size ≤ Size.capacity 8 → ∃ xs, m.read input = .ok xs) ∧
      (∀ (m : Memory) xs, m.read input = .ok xs → ∃ ys,
        Kernel.crop ⟨xs.toArray, dims⟩ offsets sizes = .ok ys ∧ m.read window = .ok ys) ∧
      ∀ index, List.Forall₂ (· < ·) index sizes → ∃ o, input.offset index = .ok o ∧
        window.offset index = .ok (o + p.offset) := by
  obtain ⟨into, hinto, hinput⟩ := inputLayout_eq_ok.1 hin
  obtain ⟨hoff, hsz, hfits, rfl⟩ := window_of_infer hop hinto hinput hn hinf
  refine ⟨crop_onlyOverflow hinto hinput hout hop halloc hoff hsz, fun p h => ?_⟩
  have hv := Layout.isValid_of_isAllocatable halloc
  obtain ⟨k, hf⟩ := (Layout.footprint_onlyOverflow hs hd hv).eq_ok hfootprint
  obtain ⟨window, dims, hlayouts, w, hoffset⟩ :=
    windowOf_of_eligible hop hinto hinput hout hs hd halloc hoff hsz hfits h
  have hdims := w.alongside.left
  obtain ⟨⟨a, ha⟩, hdistance⟩ :=
    windowOffset_eq_ok hdims hv hd hoff w.aligned hoffset
  obtain ⟨count, hproduct⟩ := Layout.product_ok hdims hcount
  refine ⟨window, dims, k, hlayouts, hdims, hf, fun m hroom hm => ?_, fun m xs => w.read_eq hv hf,
    fun index hi => ?_⟩
  · exact Memory.read_ok hv hf ha hdims hproduct hroom hm
  · rw [hdistance]
    exact w.offset_eq hv hf hi

/-- A crop of a crop in blocks of sixteen features, where the first is read in place already. -/
def windowSample : Graph :=
  (Pass.fuseAlong .standard [0, 1] (InferenceTable.standard.inferGraph [] <|
    ((Graph.empty.place "x" (.input (.unpadded (.ofSizes [1, 32, 1, 3]) .f32 .blocked16)) []).place
      "half" (.crop [0, 16, 0, 1] [1, 16, 1, 2]) [0]).place
        "last" (.crop [0, 0, 0, 1] [1, 16, 1, 1]) [1]).1).1

def windowNode : Node :=
  ⟨2, "last", .crop [0, 0, 0, 1] [1, 16, 1, 1], [1],
    some (.unpadded (.ofSizes [1, 16, 1, 1]) .f32 .blocked16), .unanalyzed, none⟩

/-- The padded layout of the first crop. -/
def halfLayout : Layout :=
  ⟨.ofSizes [1, 16, 1, 2], .f32, .blocked16, ⟨[.zero, .fixed 16 0, .zero, .fixed 1 0]⟩⟩

/-- The second crop lies sixteen elements behind the first. -/
theorem crop_window_windowSample : ∃ p window, crop ⟨windowSample, windowNode⟩ =
    .ok (.eligible p) ∧ p.offset = 16 ∧ p.layouts = [(2, window)] ∧
      ∀ (m : Memory) xs, m.read halfLayout = .ok xs → ∃ ys,
        Kernel.crop ⟨xs.toArray, [1, 16, 1, 2]⟩ [0, 0, 0, 1] [1, 16, 1, 1] = .ok ys ∧
          m.read window = .ok ys := by
  have hinf : InferenceTable.standard.infer ⟨windowSample, windowNode, []⟩ =
      .ok (.unpadded (.ofSizes [1, 16, 1, 1]) .f32 .blocked16) := rfl
  have hin : windowSample.inputLayout windowNode.id 0 = .ok halfLayout := rfl
  obtain ⟨-, h⟩ := crop_window rfl rfl hin rfl hinf rfl rfl rfl (by nofun) (by nofun)
  obtain ⟨window, dims, k, hlayouts, hdims, -, -, hread, -⟩ := h _ rfl
  obtain rfl := Option.some.inj (hdims.symm.trans (show _ = some [1, 16, 1, 2] from rfl))
  exact ⟨_, window, rfl, rfl, hlayouts, hread⟩

end Fuse
end BufferFusion
