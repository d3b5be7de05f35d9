import BufferFusion.Proofs.Memory.Tabulate

/-!
# What a memory holds

A memory holds values in a layout if each lies at the cell of its index. Reading answers what is
held. Writing makes a memory hold the values and changes no cell outside the layout.
-/
namespace BufferFusion

open Addressing

namespace Layout

variable {l l' : Layout} {sizes sizes' index index' : List Nat} {n o : Nat}

/-- The dims of the buffer, where the logical ones are `sizes`. -/
def storedSizes (l : Layout) (sizes : List Nat) : List Nat :=
  wholeBlocks l.format.block? (paddedSizes sizes l.padding.axes)

/-- The offset of an index, where nothing overflows. -/
def cellOf (l : Layout) (sizes index : List Nat) : Nat :=
  cell l.format.block? 0 (List.zipWith (· + ·) index l.padding.lower)
    (strideList (blockSize l.format.block?) (outerDims l.format.block? (l.storedSizes sizes)))

theorem cellOf_of_offset (hv : l.isValid = true) (hs : l.shape.sizes? = some sizes) {a : Addressing}
    (ha : l.addressing = .ok a) (ho : a.offset index = .ok o) : l.cellOf sizes index = o := by
  obtain ⟨sizes', stored, k⟩ := addressing_eq_ok hv ha
  obtain rfl := Option.some.inj (hs.symm.trans k.sizes_eq)
  have hcell := offsetFrom_eq_ok ho
  rw [Nat.zero_add, List.drop_zero, List.drop_zero, k.lower, k.block, k.strides, k.stored_eq] at hcell
  exact hcell.symm

/-- The cell of an index lies inside the footprint. -/
theorem offset_eq_cellOf (hv : l.isValid = true) (hf : l.footprint = .ok n)
    (hs : l.shape.sizes? = some sizes) (hi : List.Forall₂ (· < ·) index sizes) :
    l.offset index = .ok (l.cellOf sizes index) ∧ l.cellOf sizes index < n := by
  obtain ⟨o, ho, hlt⟩ := offset_lt hv hf ⟨sizes, hs, hi⟩
  obtain ⟨a, ha, hoff⟩ := Result.bind_eq_ok.1 ho
  rw [cellOf_of_offset hv hs ha hoff]
  exact ⟨ho, hlt⟩

theorem length_paddedSizes (hv : l.isValid = true) (hs : l.shape.sizes? = some sizes) :
    (paddedSizes sizes l.padding.axes).length = l.rank := by
  have := length_stored hv hs
  rwa [length_wholeBlocks] at this

theorem outer_coords_lt (hv : l.isValid = true) (hs : l.shape.sizes? = some sizes)
    (hi : List.Forall₂ (· < ·) index sizes) : List.Forall₂ (· < ·)
      (outerDims l.format.block? (List.zipWith (· + ·) index l.padding.lower))
      (outerDims l.format.block? (l.storedSizes sizes)) := by
  have hlen : sizes.length ≤ l.padding.axes.length := by
    rw [length_sizes hs, (isValid_iff.1 hv).2]
    exact Nat.le_refl l.rank
  refine outerDims_lt (coords_lt hi hlen) ?_
  rw [length_paddedSizes hv hs]
  exact fits_block hv

/-- Different indices have different cells. -/
theorem cellOf_injective (hv : l.isValid = true) (hs : l.shape.sizes? = some sizes)
    (hi : List.Forall₂ (· < ·) index sizes) (hi' : List.Forall₂ (· < ·) index' sizes)
    (he : l.cellOf sizes index = l.cellOf sizes index') : index = index' := by
  have hrank : (outerDims l.format.block? (l.storedSizes sizes)).length = l.rank := by
    rw [length_outerDims, storedSizes, length_stored hv hs]
  have hcoords := cell_injective (hrank ▸ fits_block hv) (outer_coords_lt hv hs hi)
    (outer_coords_lt hv hs hi') he
  have hlower : l.padding.lower.length = index.length := by
    rw [Padding.lower, List.length_map, (isValid_iff.1 hv).2, hi.length_eq, length_sizes hs, rank]
  refine List.ext_getElem (hi.length_eq.trans hi'.length_eq.symm) fun j hj hj' => ?_
  have hget := congrArg (·[j]?) hcoords
  simp only [List.getElem?_zipWith, List.getElem?_eq_getElem hj, List.getElem?_eq_getElem hj',
    List.getElem?_eq_getElem (show j < l.padding.lower.length by omega), Option.some.injEq] at hget
  omega

/-- There is a cell for each value. -/
theorem prod_le_footprint (hv : l.isValid = true) (hf : l.footprint = .ok n)
    (hs : l.shape.sizes? = some sizes) : sizes.prod ≤ n := by
  have hinj : ((List.range sizes.prod).map fun i => l.cellOf sizes (Index.unravel sizes i)).Nodup := by
    refine List.Nodup.map_on (fun i hi j hj he => ?_) List.nodup_range
    rw [List.mem_range] at hi hj
    have := cellOf_injective hv hs (Index.unravel_lt hi) (Index.unravel_lt hj) he
    rw [← Index.position_unravel hi, this, Index.position_unravel hj]
  have hsub : ((List.range sizes.prod).map fun i => l.cellOf sizes (Index.unravel sizes i)) ⊆
      List.range n := by
    intro o ho
    obtain ⟨i, hi, rfl⟩ := List.mem_map.1 ho
    exact List.mem_range.2 (offset_eq_cellOf hv hf hs (Index.unravel_lt (List.mem_range.1 hi))).2
  simpa using (List.subperm_of_subset hinj hsub).length_le

theorem zipWith_add_zero (h : index.length = n) :
    List.zipWith (· + ·) index (Padding.zero n).lower = index := by
  rw [Padding.lower, Padding.zero, List.map_replicate]
  refine List.ext_getElem ?_ fun j hj hj' => ?_
  · simp [h]
  · simp [AxisPadding.zero]

theorem paddedSizes_zero (h : sizes.length = n) : paddedSizes sizes (Padding.zero n).axes = sizes := by
  rw [paddedSizes, Padding.zero]
  refine List.ext_getElem ?_ fun j hj hj' => ?_
  · simp [h]
  · simp [AxisPadding.zero]

/-- In an unpadded plain layout the cells are in row-major order. -/
theorem cellOf_plain (hp : l.padding = .zero l.rank) (hb : l.format.block? = none)
    (hs : l.shape.sizes? = some sizes) (hi : List.Forall₂ (· < ·) index sizes) :
    l.cellOf sizes index = position index sizes := by
  have hlen : sizes.length = l.rank := length_sizes hs
  rw [cellOf, storedSizes, hb, hp, zipWith_add_zero (hi.length_eq.trans hlen), wholeBlocks, outerDims,
    paddedSizes_zero hlen, cell_plain, blockSize, Nat.one_mul]

/-- The cell depends on the coordinates and the dims of the buffer only. -/
theorem cellOf_congr (hf : l'.format = l.format)
    (hc : List.zipWith (· + ·) index' l'.padding.lower = List.zipWith (· + ·) index l.padding.lower)
    (hp : paddedSizes sizes' l'.padding.axes = paddedSizes sizes l.padding.axes) :
    l'.cellOf sizes' index' = l.cellOf sizes index := by
  rw [cellOf, cellOf, storedSizes, storedSizes, hf, hc, hp]

theorem sizes_eq_ok : l.sizes = .ok sizes ↔ l.shape.sizes? = some sizes := by
  rw [Layout.sizes]
  cases l.shape.sizes? <;> simp

end Layout

namespace Memory

variable {m m' : Memory} {l : Layout} {xs ys : List Float} {sizes : List Nat}

/-- Each value lies at the cell of its index. -/
def Holds (m : Memory) (l : Layout) (xs : List Float) : Prop :=
  ∃ sizes, l.shape.sizes? = some sizes ∧ xs.length = sizes.prod ∧
    ∀ index, List.Forall₂ (· < ·) index sizes →
      m.cells[l.cellOf sizes index]? = xs[position index sizes]?

theorem Holds.unique (h : m.Holds l xs) (h' : m.Holds l ys) : xs = ys := by
  obtain ⟨sizes, hs, hlen, hall⟩ := h
  obtain ⟨sizes', hs', hlen', hall'⟩ := h'
  obtain rfl := Option.some.inj (hs.symm.trans hs')
  refine List.ext_getElem? fun n => ?_
  by_cases hn : n < sizes.prod
  · have hi := Index.unravel_lt hn
    rw [← Index.position_unravel hn, ← hall _ hi, ← hall' _ hi]
  · rw [List.getElem?_eq_none (by omega), List.getElem?_eq_none (by omega)]

/-- Cells outside the layout have no part in what it holds. -/
theorem Holds.frame (h : m.Holds l xs) (hsame : ∀ index, l.HasIndex index → ∀ sizes,
    l.shape.sizes? = some sizes → m'.cells[l.cellOf sizes index]? = m.cells[l.cellOf sizes index]?) :
    m'.Holds l xs := by
  obtain ⟨sizes, hs, hlen, hall⟩ := h
  refine ⟨sizes, hs, hlen, fun index hi => ?_⟩
  rw [hsame index ⟨sizes, hs, hi⟩ sizes hs]
  exact hall index hi

/-- A memory with room for the layout holds what is in the cells. -/
theorem exists_holds (hv : l.isValid = true) {n : Nat} (hf : l.footprint = .ok n) (hroom : n ≤ m.size)
    (hs : l.shape.sizes? = some sizes) : ∃ xs, m.Holds l xs := by
  refine ⟨(List.range sizes.prod).map fun i =>
    m.cells.getD (l.cellOf sizes (Index.unravel sizes i)) 0, sizes, hs, by simp, fun index hi => ?_⟩
  obtain ⟨-, hlt⟩ := Layout.offset_eq_cellOf hv hf hs hi
  have hcell : l.cellOf sizes index < m.cells.size := Nat.lt_of_lt_of_le hlt hroom
  rw [List.getElem?_map, List.getElem?_range (position_lt hi), Option.map_some,
    Index.unravel_position hi, Array.getD_eq_getD_getElem?, Array.getElem?_eq_getElem hcell,
    Option.getD_some]

theorem fetch_eq_ok {o : Nat} {x : Float} : m.fetch o = .ok x ↔ m.cells[o]? = some x := by
  rw [fetch]
  cases m.cells[o]? <;> simp

theorem read_eq_ok : m.read l = .ok xs ↔ ∃ sizes a count, l.shape.sizes? = some sizes ∧
    l.addressing = .ok a ∧ Size.product sizes = .ok count ∧ Size.reserve 8 count = .ok () ∧
      xs.length = count ∧ ∀ n x, xs[n]? = some x → ∃ o,
        a.offset (Index.unravel sizes n) = .ok o ∧ m.cells[o]? = some x := by
  simp only [read, Result.bind_eq_ok, Layout.sizes_eq_ok, tabulate_eq_ok, fetch_eq_ok]
  constructor
  · rintro ⟨sizes, hs, a, ha, count, hcount, u, hr, hall⟩
    exact ⟨sizes, a, count, hs, ha, hcount, hr, hall⟩
  · rintro ⟨sizes, a, count, hs, ha, hcount, hr, hall⟩
    exact ⟨sizes, hs, a, ha, count, hcount, (), hr, hall⟩

/-- What is read is held. -/
theorem holds_of_read (hv : l.isValid = true) (h : m.read l = .ok xs) : m.Holds l xs := by
  obtain ⟨sizes, a, count, hs, ha, hcount, -, hlen, hall⟩ := read_eq_ok.1 h
  have hprod := Size.prod_of_product hcount
  refine ⟨sizes, hs, hlen.trans hprod.symm, fun index hi => ?_⟩
  have hlt : position index sizes < xs.length := by
    have := position_lt hi
    omega
  obtain ⟨o, ho, hx⟩ := hall _ _ (List.getElem?_eq_getElem hlt)
  rw [Index.unravel_position hi] at ho
  rw [Layout.cellOf_of_offset hv hs ha ho, hx, List.getElem?_eq_getElem hlt]

/-- What is held is read, where there is room for it. -/
theorem read_of_holds (hv : l.isValid = true) {n count : Nat} (hf : l.footprint = .ok n)
    {a : Addressing} (ha : l.addressing = .ok a) (hs : l.shape.sizes? = some sizes)
    (hcount : Size.product sizes = .ok count) (hr : Size.reserve 8 count = .ok ())
    (h : m.Holds l xs) : m.read l = .ok xs := by
  obtain ⟨sizes', hs', hlen, hall⟩ := h
  obtain rfl := Option.some.inj (hs.symm.trans hs')
  have hprod := Size.prod_of_product hcount
  refine read_eq_ok.2 ⟨sizes, a, count, hs, ha, hcount, hr, hlen.trans hprod, fun k x hx => ?_⟩
  have hk : k < sizes.prod := by
    have := (List.getElem?_eq_some_iff.1 hx).1
    omega
  have hi := Index.unravel_lt hk
  obtain ⟨ho, -⟩ := Layout.offset_eq_cellOf hv hf hs hi
  obtain ⟨a', ha', ho⟩ := Result.bind_eq_ok.1 ho
  obtain rfl := Except.ok.inj (ha.symm.trans ha')
  refine ⟨_, ho, ?_⟩
  rw [hall _ hi, Index.position_unravel hk, hx]

/-! ### Writing -/

/-- Writing from a position on: each value lies where the addressing says, and other cells stay. -/
theorem writeFrom_eq_ok {a : Addressing} {k : Nat}
    (h : m.writeFrom a sizes k xs = (m', .ok ()))
    (hinj : ∀ i j o, i < xs.length → j < xs.length →
      a.offset (Index.unravel sizes (k + i)) = .ok o →
        a.offset (Index.unravel sizes (k + j)) = .ok o → i = j) :
    (∀ i x, xs[i]? = some x → ∃ o, a.offset (Index.unravel sizes (k + i)) = .ok o ∧
      m'.cells[o]? = some x) ∧
    ∀ o, (∀ i, i < xs.length → a.offset (Index.unravel sizes (k + i)) ≠ .ok o) →
      m'.cells[o]? = m.cells[o]? := by
  induction xs generalizing k m with
  | nil =>
    obtain rfl := (Prod.mk.inj h).1
    exact ⟨by simp, fun o _ => rfl⟩
  | cons x xs ih =>
    rw [writeFrom] at h
    cases ho : a.offset (Index.unravel sizes k) with
    | error e =>
      rw [ho] at h
      cases h
    | ok o =>
      rw [ho] at h
      by_cases hlt : o < m.size
      · simp only [if_pos hlt] at h
        obtain ⟨hput, hframe⟩ := ih h fun i j o' hi hj hoi hoj => by
          have := hinj (i + 1) (j + 1) o' (by simpa using hi) (by simpa using hj)
            (by rwa [Nat.add_comm i, ← Nat.add_assoc]) (by rwa [Nat.add_comm j, ← Nat.add_assoc])
          omega
        -- the first value is not written over
        have hfirst : ∀ i, i < xs.length → a.offset (Index.unravel sizes (k + 1 + i)) ≠ .ok o := by
          intro i hi hoi
          have := hinj (i + 1) 0 o (by simpa using hi) (Nat.succ_pos _)
            (by rwa [Nat.add_comm i, ← Nat.add_assoc]) ho
          omega
        constructor
        · intro i y hy
          cases i with
          | zero =>
            obtain rfl := Option.some.inj hy
            refine ⟨o, ho, ?_⟩
            rw [hframe o hfirst, cells_put, if_pos rfl, if_pos hlt]
          | succ i =>
            obtain ⟨o', ho', hy'⟩ := hput i y hy
            refine ⟨o', ?_, hy'⟩
            rwa [Nat.add_comm i, ← Nat.add_assoc]
        · intro o' hout
          have hne : o ≠ o' := by
            rintro rfl
            exact hout 0 (Nat.succ_pos _) ho
          rw [hframe o' fun i hi => ?_, cells_put, if_neg hne]
          have := hout (i + 1) (by simpa using hi)
          rwa [Nat.add_comm i, ← Nat.add_assoc] at this
      · simp only [if_neg hlt] at h
        cases h

theorem write_eq_ok : m.write l xs = (m', .ok ()) ↔ ∃ sizes a, l.shape.sizes? = some sizes ∧
    Size.product sizes = .ok xs.length ∧ l.addressing = .ok a ∧
      m.writeFrom a sizes 0 xs = (m', .ok ()) := by
  simp only [write]
  cases hs : l.shape.sizes? with
  | none => simp [Layout.sizes, hs, bind, Except.bind]
  | some sizes =>
    simp only [Layout.sizes_eq_ok.2 hs, Option.some.injEq]
    cases hp : Size.product sizes with
    | error e => simp [hp, bind, Except.bind]
    | ok count =>
      by_cases hc : xs.length = count
      · cases l.addressing with
        | error e => simp [hp, hc, bind, Except.bind]
        | ok a => simp [hp, hc, bind, Except.bind, pure, Except.pure]
      · simp [hp, hc, Ne.symm hc, bind, Except.bind]

/-- What is written is held, and other cells stay. -/
theorem holds_of_write (hv : l.isValid = true) (h : m.write l xs = (m', .ok ())) :
    m'.Holds l xs ∧ ∀ o, (∀ index sizes, l.shape.sizes? = some sizes →
      List.Forall₂ (· < ·) index sizes → l.cellOf sizes index ≠ o) →
        m'.cells[o]? = m.cells[o]? := by
  obtain ⟨sizes, a, hs, hcount, ha, h⟩ := write_eq_ok.1 h
  have hprod := Size.prod_of_product hcount
  have hcell : ∀ {i o}, a.offset (Index.unravel sizes (0 + i)) = .ok o →
      l.cellOf sizes (Index.unravel sizes i) = o := fun ho =>
    Layout.cellOf_of_offset hv hs ha (by rwa [Nat.zero_add] at ho)
  have hinj : ∀ i j o, i < xs.length → j < xs.length →
      a.offset (Index.unravel sizes (0 + i)) = .ok o →
        a.offset (Index.unravel sizes (0 + j)) = .ok o → i = j := by
    intro i j o hi hj hoi hoj
    rw [← hprod] at hi hj
    have := Layout.cellOf_injective hv hs (Index.unravel_lt hi) (Index.unravel_lt hj)
      ((hcell hoi).trans (hcell hoj).symm)
    rw [← Index.position_unravel hi, this, Index.position_unravel hj]
  obtain ⟨hput, hframe⟩ := writeFrom_eq_ok h hinj
  constructor
  · refine ⟨sizes, hs, hprod.symm, fun index hi => ?_⟩
    have hlt : position index sizes < xs.length := hprod ▸ position_lt hi
    obtain ⟨o, ho, hx⟩ := hput _ _ (List.getElem?_eq_getElem hlt)
    have hc := hcell ho
    rw [Index.unravel_position hi] at hc
    rw [hc, hx, List.getElem?_eq_getElem hlt]
  · intro o hout
    refine hframe o fun i hi ho => ?_
    exact hout _ sizes hs (Index.unravel_lt (hprod ▸ hi)) (hcell ho)

theorem writeFrom_ok {a : Addressing} {k : Nat} (h : ∀ i, i < xs.length → ∃ o,
    a.offset (Index.unravel sizes (k + i)) = .ok o ∧ o < m.size) :
    ∃ m', m.writeFrom a sizes k xs = (m', .ok ()) := by
  induction xs generalizing k m with
  | nil => exact ⟨m, rfl⟩
  | cons x xs ih =>
    obtain ⟨o, ho, hlt⟩ := h 0 (Nat.succ_pos _)
    rw [Nat.add_zero] at ho
    simp only [writeFrom, ho, if_pos hlt]
    refine ih fun i hi => ?_
    rw [size_put, Nat.add_assoc, Nat.add_comm 1 i]
    exact h (i + 1) (by simpa using hi)

/-- A memory with room for the layout can be written. -/
theorem write_ok (hv : l.isValid = true) {n : Nat} (hf : l.footprint = .ok n) (hroom : n ≤ m.size)
    {a : Addressing} (ha : l.addressing = .ok a) (hs : l.shape.sizes? = some sizes)
    (hcount : Size.product sizes = .ok xs.length) : ∃ m', m.write l xs = (m', .ok ()) := by
  have hprod := Size.prod_of_product hcount
  obtain ⟨m', hm'⟩ := @writeFrom_ok m xs sizes a 0 fun i hi => by
    obtain ⟨ho, hlt⟩ := Layout.offset_eq_cellOf hv hf hs (Index.unravel_lt (hprod ▸ hi))
    obtain ⟨a', ha', ho⟩ := Result.bind_eq_ok.1 ho
    obtain rfl := Except.ok.inj (ha.symm.trans ha')
    rw [Nat.zero_add]
    exact ⟨_, ho, Nat.lt_of_lt_of_le hlt hroom⟩
  exact ⟨m', write_eq_ok.2 ⟨sizes, a, hs, hcount, ha, hm'⟩⟩

end Memory
end BufferFusion
