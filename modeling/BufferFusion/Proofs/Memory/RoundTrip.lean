import BufferFusion.Proofs.Layout.Counts
import BufferFusion.Proofs.Memory.Contents

/-!
# Reading what was written

A layout gives every logical index an element of its own inside the buffer. So values that are
written through a layout are read again through it, and what lies between them stays.
-/
namespace BufferFusion

namespace Layout

variable {l : Layout} {sizes index index' : List Nat} {n o count : Nat} {a : Addressing}

theorem count_eq_product (hs : l.shape.sizes? = some sizes) :
    l.count = some <$> Size.product sizes := by
  rw [count, Shape.count, Shape.dims_of_sizes? hs, Dim.count_known]
  rfl

theorem product_ok (hs : l.shape.sizes? = some sizes)
    (h : l.count ≠ .error (.fault .overflow)) : ∃ count, Size.product sizes = .ok count := by
  obtain ⟨c, hc⟩ := (Dim.count_onlyOverflow 1 l.shape.dims).eq_ok h
  obtain ⟨count, hcount, -⟩ := Result.map_eq_ok.1 ((count_eq_product hs).symm.trans hc)
  exact ⟨count, hcount⟩

/-- The offset of an index, found with the addressing made once. -/
theorem addressing_offset (hv : l.isValid = true) (hf : l.footprint = .ok n)
    (ha : l.addressing = .ok a) (hs : l.shape.sizes? = some sizes)
    (hi : List.Forall₂ (· < ·) index sizes) :
    a.offset index = .ok (l.cellOf sizes index) ∧ l.cellOf sizes index < n := by
  obtain ⟨ho, hlt⟩ := offset_eq_cellOf hv hf hs hi
  obtain ⟨a', ha', ho⟩ := Result.bind_eq_ok.1 ho
  obtain rfl := Except.ok.inj (ha.symm.trans ha')
  exact ⟨ho, hlt⟩

/-- Different logical indices have different offsets. -/
theorem addressing_injective (hv : l.isValid = true) (hf : l.footprint = .ok n)
    (ha : l.addressing = .ok a) (hi : l.HasIndex index) (hi' : l.HasIndex index')
    (he : a.offset index = a.offset index') : index = index' := by
  obtain ⟨sizes, hs, hlt⟩ := hi
  obtain ⟨sizes', hs', hlt'⟩ := hi'
  obtain rfl := Option.some.inj (hs.symm.trans hs')
  rw [(addressing_offset hv hf ha hs hlt).1, (addressing_offset hv hf ha hs hlt').1] at he
  exact cellOf_injective hv hs hlt hlt' (Except.ok.inj he)

end Layout

namespace Memory

variable {m m' : Memory} {l : Layout} {xs : List Float} {n o : Nat} {a : Addressing}

/-- Writing changes no cell that is not the offset of an index. -/
theorem cells_write (hv : l.isValid = true) (hf : l.footprint = .ok n) (ha : l.addressing = .ok a)
    (h : m.write l xs = (m', .ok ())) (ho : ∀ index, l.HasIndex index → a.offset index ≠ .ok o) :
    m'.cells[o]? = m.cells[o]? := by
  refine (holds_of_write hv h).2 o fun index sizes hs hi he => ?_
  exact ho index ⟨sizes, hs, hi⟩ (he ▸ (Layout.addressing_offset hv hf ha hs hi).1)

/-- Values that fill a memory's part have room in one list. -/
theorem reserve_of_room (hv : l.isValid = true) (hf : l.footprint = .ok n) (hroom : n ≤ m.size)
    (hm : m.size ≤ Size.capacity 8) {sizes : List Nat} (hs : l.shape.sizes? = some sizes) :
    Size.reserve 8 sizes.prod = .ok () :=
  Size.reserve_eq_ok.2 ((Layout.prod_le_footprint hv hf hs).trans (hroom.trans hm))

end Memory

/-- A sound layout whose shape and padding are known has an offset inside the buffer for each index,
and no offset for two. A memory with room for the buffer, which is no larger than memories get, takes
as many values as the layout has elements; it keeps what lies outside the layout, and the values are
read again. All this as long as the sizes of the layout do not overflow. -/
theorem Layout.read_write {l : Layout} (hv : l.validate = .ok ()) (hs : l.isStatic = true)
    (hd : l.padding.hasDynamic = false) (hfootprint : l.footprint ≠ .error (.fault .overflow))
    (haddressing : l.addressing ≠ .error (.fault .overflow))
    (hcount : l.count ≠ .error (.fault .overflow)) :
    ∃ n a count, l.footprint = .ok n ∧ l.addressing = .ok a ∧ l.count = .ok (some count) ∧
      (∀ index, l.HasIndex index → ∃ o, a.offset index = .ok o ∧ o < n) ∧
      (∀ index index', l.HasIndex index → l.HasIndex index' →
        a.offset index = a.offset index' → index = index') ∧
      ∀ (m : Memory) (xs : List Float), n ≤ m.size → m.size ≤ Size.capacity 8 →
        xs.length = count → ∃ m', m.write l xs = (m', .ok ()) ∧ m'.size = m.size ∧
          (∀ o, (∀ index, l.HasIndex index → a.offset index ≠ .ok o) →
            m'.cells[o]? = m.cells[o]?) ∧
          m'.read l = .ok xs := by
  have hv := (Layout.validate_eq_ok_iff l).1 hv
  obtain ⟨sizes, hsizes⟩ := Option.isSome_iff_exists.1 ((Shape.isStatic_iff_sizes? _).1 hs)
  obtain ⟨n, hf⟩ := (footprint_onlyOverflow hs hd hv).eq_ok hfootprint
  obtain ⟨a, ha⟩ := (addressing_onlyOverflow hs hd hv).eq_ok haddressing
  obtain ⟨c, hc⟩ := (Dim.count_onlyOverflow 1 l.shape.dims).eq_ok hcount
  obtain ⟨count, hproduct, rfl⟩ := Result.map_eq_ok.1 ((count_eq_product hsizes).symm.trans hc)
  refine ⟨n, a, count, hf, ha, hc, fun index hi => ?_,
    fun index index' => addressing_injective hv hf ha, fun m xs hroom hm hlen => ?_⟩
  · obtain ⟨sizes', hs', hlt⟩ := hi
    exact ⟨_, addressing_offset hv hf ha hs' hlt⟩
  · rw [← hlen] at hproduct
    obtain ⟨m', hw⟩ := Memory.write_ok hv hf hroom ha hsizes hproduct
    have hreserve := Memory.reserve_of_room hv hf hroom hm hsizes
    rw [Size.prod_of_product hproduct] at hreserve
    refine ⟨m', hw, ?_, fun o ho => Memory.cells_write hv hf ha hw ho,
      Memory.read_of_holds hv hf ha hsizes hproduct hreserve (Memory.holds_of_write hv hw).1⟩
    rw [← Memory.size_write m l xs, hw]

/-- Features in blocks of sixteen behind padding that ends inside a block. -/
def Layout.blockedSample : Layout :=
  ⟨.ofSizes [1, 20, 1, 2], .f32, .blocked16, ⟨[.zero, .fixed 3 0, .zero, .fixed 1 0]⟩⟩

/-- The elements of two blocks, written and read. -/
theorem Layout.read_write_blockedSample : ∃ m',
    (⟨.f32, .replicate 96 0⟩ : Memory).write blockedSample ((List.range 40).map Float.ofNat) =
      (m', .ok ()) ∧ m'.read blockedSample = .ok ((List.range 40).map Float.ofNat) := by
  obtain ⟨n, a, count, hn, -, hcount, -, -, h⟩ :=
    Layout.read_write (l := blockedSample) rfl rfl rfl (by nofun) (by nofun) (by nofun)
  obtain rfl := Except.ok.inj (hn.symm.trans (show blockedSample.footprint = .ok 96 from rfl))
  obtain rfl : 40 = count := by
    have := hcount.symm.trans (show blockedSample.count = .ok (some 40) from rfl)
    exact (Option.some.inj (Except.ok.inj this)).symm
  obtain ⟨m', hw, -, -, hr⟩ := h ⟨.f32, .replicate 96 0⟩ ((List.range 40).map Float.ofNat)
    (by decide) (by decide) (by simp)
  exact ⟨m', hw, hr⟩

end BufferFusion
